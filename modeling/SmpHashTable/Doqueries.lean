import SmpHashTable.Designs
import SmpHashTable.Ledger
import SmpHashTable.Waiting

/-!
# The callers of the table

`doqueries` makes the requests of a batch and waits for their values, and its caller gives every value back before
the next batch (`handle_query_result`).  With designs 1 and 2 the calls it makes are calls of a client of a
message-passing table, with design 3 of a thread of a locking table.  Here it is shown that these callers work in
batches, whatever the servers and the other threads do, so that the three designs return the same.

Where the caller stands is read off what its calls have done.
-/

namespace SmpHashTable

open FillingCache (Agrees)

/-! ### The calls -/

/-- The requests the caller makes next: the rest of the batch, or the next batch when all values of the last one have
been handled. -/
def Talk.next (x : Talk) : List Msg :=
  match x.rest with
  | q :: rest => q :: rest
  | [] => if x.awaited = [] ∧ x.handles = [] then x.later.headD [] else []

/-- The calls that `doqueries` and its caller make next, on a table with message passing. -/
def Talk.Calls (x : Talk) (design : ℕ) : Call → Prop
  | .lookup key => design = 1 ∧ x.next.head? = some (.lookup key)
  | .insert key size => design = 1 ∧ x.next.head? = some (.insert key size)
  | .getNext => design = 1 ∧ x.rest = [] ∧ x.awaited ≠ []
  | .doall queries => design = 2 ∧ x.Settled ∧ x.next ≠ [] ∧ queries.map HashQuery.msg = x.next.map some
  | .release ptr => x.Settled ∧ .release (sub64 ptr sizeofElem) ∈ x.handles
  | .markReady ptr => x.Settled ∧ .markReady (sub64 ptr sizeofElem) ∈ x.handles
  | .tryGetNext => False

/-- Client `c` is a caller of `doqueries` for the batches `bs`, and no other client calls anything. -/
def Act.Doqueries (design c : ℕ) (bs : List (List Msg)) (st : Sys) (log : List Event) : Act → Prop
  | .create _ _ => st.stopper = .idle
  | .call c' k => c' = c ∧ st.stopper = .idle ∧
      ∃ x, Runs.replay (Talk.apply c) (Talk.start bs) log = some x ∧ x.Calls design k
  | .stop => ∀ c < st.nclients, (st.client c).pc = .idle
  | _ => True

instance Talk.decidableCalls (x : Talk) (design : ℕ) : (k : Call) → Decidable (x.Calls design k)
  | .lookup _ => inferInstanceAs (Decidable (_ ∧ _))
  | .insert _ _ => inferInstanceAs (Decidable (_ ∧ _))
  | .getNext => inferInstanceAs (Decidable (_ ∧ _ ∧ _))
  | .doall _ => inferInstanceAs (Decidable (_ ∧ _ ∧ _ ∧ _))
  | .release _ => inferInstanceAs (Decidable (_ ∧ _))
  | .markReady _ => inferInstanceAs (Decidable (_ ∧ _))
  | .tryGetNext => isFalse id

/-- Whether the caller calls `k` next. -/
instance decidableCalls (design c : ℕ) (bs : List (List Msg)) (log : List Event) (k : Call) :
    Decidable (∃ x, Runs.replay (Talk.apply c) (Talk.start bs) log = some x ∧ x.Calls design k) :=
  match h : Runs.replay (Talk.apply c) (Talk.start bs) log with
  | some x => decidable_of_iff (x.Calls design k) (by simp)
  | none => isFalse (by simp)

instance Act.decidableDoqueries (design c : ℕ) (bs : List (List Msg)) (st : Sys) (log : List Event) :
    (a : Act) → Decidable (a.Doqueries design c bs st log)
  | .create _ _ => inferInstanceAs (Decidable (st.stopper = .idle))
  | .call _ _ => inferInstanceAs (Decidable (_ ∧ _ ∧ _))
  | .stop => inferInstanceAs (Decidable (∀ c < st.nclients, (st.client c).pc = .idle))
  | .start _ => isTrue trivial
  | .stopper => isTrue trivial
  | .client _ => isTrue trivial
  | .server _ _ => isTrue trivial

/-- The runs of such a client and any number of servers. -/
def Sys.Doqueries (t : Table) (design c : ℕ) (bs : List (List Msg)) : Sys → List Event → Prop :=
  Runs.Reach Sys.step (fun st log a => a.Doqueries design c bs st log) (Sys.init t)

/-- What is promised about the queries: lookups and inserts with 60-bit keys and positive sizes. -/
def Msg.Ok : Msg → Prop
  | .lookup key => key < 2 ^ 60
  | .insert key size => key < 2 ^ 60 ∧ 0 < size ∧ size < 2 ^ 31
  | _ => False

instance Msg.decidableOk : (m : Msg) → Decidable m.Ok
  | .lookup _ => inferInstanceAs (Decidable (_ < _))
  | .insert _ _ => inferInstanceAs (Decidable (_ ∧ _ ∧ _))
  | .release _ => isFalse id
  | .markReady _ => isFalse id

theorem Msg.isRequest_of_ok {m : Msg} (h : m.Ok) : m.isRequest = true := by
  cases m with
  | lookup key => rfl
  | insert key size => rfl
  | release e => exact h.elim
  | markReady e => exact h.elim

/-- A call that returns 0 at once; `doqueries` asserts that there is none. -/
def Call.Refused (cl : Client) : Call → Prop
  | .lookup _ | .insert _ _ => sub64 cl.pd.pendingIndex cl.pd.rdIndex ≥ MAX_PENDING_SIZE
  | .getNext => cl.pd.rdIndex = cl.pd.pendingIndex
  | .tryGetNext => cl.pd.rdIndex = cl.pd.wrIndex
  | _ => False

/-! ### What is next -/

section

variable {x x' : Talk} {m : Msg} {v : ℕ}

theorem Talk.next_of_rest (h : x.rest ≠ []) : x.next = x.rest := by
  rw [Talk.next]
  split
  · next hrest => exact hrest.symm
  · next hrest => exact absurd hrest h

/-- The next request is sent. -/
theorem Talk.send_next {rest : List Msg} (h : x.next = m :: rest) (hm : m.isRequest = true) :
    ∃ x', x.send m = some x' ∧ x'.rest = rest := by
  rw [Talk.next] at h
  split at h
  · next q rest' hrest =>
    cases h
    exact ⟨_, by rw [Talk.send, if_pos hm, hrest]; exact if_pos rfl, rfl⟩
  · next hrest =>
    split at h
    · next hcond =>
      cases hlater : x.later with
      | nil =>
          rw [hlater] at h
          cases h
      | cons b later =>
          rw [hlater] at h
          have hb : b = m :: rest := h
          subst hb
          exact ⟨_, by rw [Talk.send, if_pos hm, hrest, hlater]; exact if_pos ⟨hcond.1, hcond.2, rfl⟩, rfl⟩
    · cases h

/-- Obtaining a value changes neither. -/
theorem Talk.obtain_rest (h : x.obtain v = some x') : x'.rest = x.rest := by
  unfold Talk.obtain at h
  split at h
  · cases h
    rfl
  · cases h

theorem Talk.obtain_next (h : x.obtain v = some x') (hnext : x.next ≠ []) : x'.next = x.next := by
  have hrest : x.rest ≠ [] := by
    intro hnil
    rw [Talk.next, hnil] at hnext
    unfold Talk.obtain at h
    split at h
    · next a awaited hawaited => exact hnext (if_neg fun hcond => by rw [hawaited] at hcond; cases hcond.1)
    · cases h
  rw [Talk.next_of_rest hrest, Talk.next_of_rest (Talk.obtain_rest h ▸ hrest), Talk.obtain_rest h]

theorem Talk.obtain_some (h : x.awaited ≠ []) (v : ℕ) : ∃ x', x.obtain v = some x' := by
  unfold Talk.obtain
  split
  · exact ⟨_, rfl⟩
  · next hnil => exact absurd hnil h

/-- What is next is in the batches. -/
theorem Talk.Follows.next_mem {c : ℕ} {bs : List (List Msg)} {log : List Event} (h : Talk.Follows c bs x log)
    (hm : m ∈ x.next) : m ∈ bs.flatten := by
  rw [requests_of_plan h.plan]
  refine List.mem_append_right _ ?_
  rw [Talk.next] at hm
  split at hm
  · next q rest hrest =>
    rw [hrest]
    exact List.mem_append_left _ hm
  · split at hm
    · cases hlater : x.later with
      | nil =>
          rw [hlater] at hm
          cases hm
      | cons b later =>
          rw [hlater] at hm
          exact List.mem_append_right _ (List.mem_append_left _ hm)
    · cases hm

/-- Only requests of this batch are awaited. -/
theorem Talk.awaited_le {c : ℕ} {bs : List (List Msg)} {log : List Event}
    (h : Runs.replay (Talk.apply c) (Talk.start bs) log = some x) : x.awaited.length ≤ x.asked.length := by
  refine Runs.replay_history (P := fun (x : Talk) _ => x.awaited.length ≤ x.asked.length) le_rfl ?_ h
  intro x x' _ ev hle htalk
  cases ev with
  | issue c' s m =>
      simp only [Talk.apply] at htalk
      split at htalk
      · rcases Talk.send_cases htalk with ⟨-, rest, -, rfl⟩ | ⟨-, -, -, rest, later, -, rfl⟩ | ⟨-, -, -, rfl⟩
        · simpa using hle
        · exact le_rfl
        · exact hle
      · cases htalk
  | got c' v =>
      simp only [Talk.apply] at htalk
      split at htalk
      · unfold Talk.obtain at htalk
        split at htalk
        · next m awaited hcons =>
          cases htalk
          rw [hcons, List.length_cons] at hle
          exact (Nat.le_succ _).trans hle
        · cases htalk
      · cases htalk
  | exec s c' op o resp removed =>
      cases htalk
      exact hle
  | read c' s v =>
      cases htalk
      exact hle
  | doallDone c' queries values =>
      cases htalk
      exact hle

/-- The pending ring has room for what is next. -/
theorem Talk.Follows.room {c : ℕ} {bs : List (List Msg)} {log : List Event} (h : Talk.Follows c bs x log)
    (hx : Runs.replay (Talk.apply c) (Talk.start bs) log = some x) (hroom : ∀ b ∈ bs, b.length ≤ MAX_PENDING_SIZE)
    (hne : x.next ≠ []) : x.awaited.length < MAX_PENDING_SIZE := by
  rw [Talk.next] at hne
  split at hne
  · next q rest hrest =>
    have hmem : x.asked ++ x.rest ∈ [] :: bs := by
      rw [← h.plan]
      exact List.mem_append_right _ List.mem_cons_self
    have hle := Talk.awaited_le hx
    rcases List.mem_cons.mp hmem with hnil | hmem
    · rw [hrest] at hnil
      cases (List.append_eq_nil_iff.mp hnil).2
    · have hlen := hroom _ hmem
      rw [hrest, List.length_append, List.length_cons] at hlen
      omega
  · split at hne
    · next hcond =>
      rw [hcond.1]
      decide
    · exact absurd rfl hne

end

/-! ### A call in progress -/

/-- A request under way is the next one. -/
def Talk.Next (x : Talk) (m : Msg) : Prop := m.isRequest = true ∧ ∃ rest, x.next = m :: rest

/-- The queries that `smp_hash_doall` has not sent are the requests that are next. -/
def Doall.Left (d : Doall) (x : Talk) : Prop :=
  (d.queries.drop d.i).map HashQuery.msg = (if d.i < d.queries.length then x.next else x.rest).map some

def ReadRet.Asks (x : Talk) : ReadRet → Prop
  | .window m => x.Next m
  | .getNext => True
  | .doall d => d.Left x
  | .drain _ => x.rest = []

def WriteRet.Asks (x : Talk) (m : Msg) : WriteRet → Prop
  | .request => x.Next m
  | .release _ => True
  | .doall d => d.Left x ∧ ∃ q, d.queries[d.i]? = some q ∧ q.msg = some m

def FlushRet.Asks (x : Talk) : FlushRet → Prop
  | .write m ret => ret.Asks x m
  | .read ret => ret.Asks x
  | .release => True
  | .doall _ => x.rest = []

/-- A call in progress has to send what is next. -/
def ClientPc.Asks (x : Talk) : ClientPc → Prop
  | .idle => True
  | .window m => x.Next m
  | .write _ m ret => ret.Asks x m
  | .append _ m ret => ret.Asks x m
  | .flush _ _ ret => ret.Asks x
  | .load _ _ ret => ret.Asks x
  | .take _ _ ret => ret.Asks x
  | .doall d => d.Left x
  | .flushAll _ _ => x.rest = []
  | .drain _ => x.rest = []

section

variable {x x' : Talk} {m : Msg} {v : ℕ} {d : Doall}

theorem Talk.Next.obtain (h : x.Next m) (hx : x.obtain v = some x') : x'.Next m := by
  obtain ⟨hm, rest, hnext⟩ := h
  refine ⟨hm, rest, ?_⟩
  rw [Talk.obtain_next hx (by rw [hnext]; exact List.cons_ne_nil _ _), hnext]

theorem Doall.Left.obtain (h : d.Left x) (hx : x.obtain v = some x') : d.Left x' := by
  unfold Doall.Left at h ⊢
  by_cases hi : d.i < d.queries.length
  · rw [if_pos hi] at h ⊢
    have hne : x.next ≠ [] := by
      intro hnil
      rw [hnil, List.map_nil, List.map_eq_nil_iff, List.drop_eq_nil_iff] at h
      omega
    rw [Talk.obtain_next hx hne]
    exact h
  · rw [if_neg hi] at h ⊢
    rw [Talk.obtain_rest hx]
    exact h

/-- The next query of `smp_hash_doall` is the next request. -/
theorem Doall.Left.cons (h : d.Left x) {q : HashQuery} (hq : d.queries[d.i]? = some q) (hm : q.msg = some m) :
    x.Next m ∧ ∀ s x', x'.rest = x.next.tail → (d.push s).Left x' := by
  obtain ⟨hi, hget⟩ := List.getElem?_eq_some_iff.mp hq
  unfold Doall.Left at h
  rw [if_pos hi, List.drop_eq_getElem_cons hi, List.map_cons, hget, hm] at h
  obtain ⟨a, rest, hnext, ha, htail⟩ := List.map_eq_cons_iff.mp h.symm
  cases ha
  refine ⟨⟨q.isRequest_of_msg hm, rest, hnext⟩, fun s x' hrest => ?_⟩
  rw [hnext, List.tail_cons] at hrest
  subst hrest
  show (d.queries.drop (d.i + 1)).map HashQuery.msg
    = (if d.i + 1 < d.queries.length then x'.next else x'.rest).map some
  split
  · next hlt =>
    have hne : x'.rest ≠ [] := by
      intro hnil
      rw [hnil] at htail
      have hdrop := List.drop_eq_nil_iff.mp (List.map_eq_nil_iff.mp htail.symm)
      omega
    rw [Talk.next_of_rest hne, htail]
  · exact htail.symm

/-- **A step of the client** sends what is next. -/
theorem clientStep_asks {n c : ℕ} {cl cl' : Client} {evs : List Event} (hstep : clientStep n c cl = .ok (cl', evs))
    (h : cl.pc.Asks x) (hgot : ∀ s b ret, cl.pc = .take s b ret → x.awaited ≠ []) :
    ∃ x', Runs.replay (Talk.apply c) x evs = some x' ∧ cl'.pc.Asks x' := by
  -- a step without an event for the caller
  have hquiet : ∀ {evs : List Event} {pc : ClientPc}, Runs.replay (Talk.apply c) x evs = some x → pc.Asks x →
      ∃ x', Runs.replay (Talk.apply c) x evs = some x' ∧ pc.Asks x' := fun h hpc => ⟨x, h, hpc⟩
  -- a request goes out
  have hsend : ∀ {s : ℕ} {m : Msg} {pc : ClientPc}, x.Next m → (∀ x', x'.rest = x.next.tail → pc.Asks x') →
      ∃ x', Runs.replay (Talk.apply c) x [.issue c s m] = some x' ∧ pc.Asks x' := by
    rintro s m pc ⟨hm, rest, hnext⟩ hpc
    obtain ⟨x', hx, hrest⟩ := Talk.send_next hnext hm
    refine ⟨x', ?_, hpc x' (by rw [hrest, hnext, List.tail_cons])⟩
    simp [Runs.replay, Talk.apply, hx]
  -- a value is read and handed to the caller
  have htake : ∀ {s v w : ℕ} {evs : List Event} {pc : ClientPc}, evs = [.read c s v, .got c w] → x.awaited ≠ [] →
      (∀ x', x.obtain w = some x' → pc.Asks x') →
      ∃ x', Runs.replay (Talk.apply c) x evs = some x' ∧ pc.Asks x' := by
    rintro s v w evs pc rfl hne hpc
    obtain ⟨x', hx⟩ := Talk.obtain_some hne w
    refine ⟨x', ?_, hpc x' hx⟩
    simp [Runs.replay, Talk.apply, hx]
  obtain ⟨pc, pd, box⟩ := cl
  cases pc with
  | idle => cases hstep
  | window m =>
      simp only [clientStep] at hstep
      split at hstep
      · cases hstep
        exact hquiet rfl h
      · cases hstep
        exact hquiet rfl h
  | write s m ret =>
      simp only [clientStep] at hstep
      split at hstep
      · split at hstep
        · cases hstep
          exact hquiet rfl h
        · cases hstep
          exact hquiet rfl h
      · cases hstep
  | append s m ret =>
      simp only [clientStep] at hstep
      cases ret with
      | request =>
          cases hstep
          exact hsend h fun _ _ => trivial
      | release b =>
          cases hstep
          refine hquiet rfl ?_
          cases b <;> trivial
      | doall d =>
          cases hstep
          obtain ⟨hleft, q, hq, hm⟩ := h
          obtain ⟨hnext, hpush⟩ := hleft.cons hq hm
          exact hsend hnext fun x' hrest => hpush s x' hrest
  | flush s pc ret =>
      simp only [clientStep] at hstep
      split at hstep
      · cases hstep
        exact hquiet rfl h
      · cases hstep
        refine hquiet rfl ?_
        cases ret <;> exact h
  | load s blocking ret =>
      simp only [clientStep] at hstep
      cases hstep
      exact hquiet rfl h
  | take s blocking ret =>
      simp only [clientStep] at hstep
      split at hstep
      · cases hstep
        refine hquiet rfl ?_
        cases blocking <;> exact h
      · next b v _ =>
        cases ret with
        | window m =>
            cases hstep
            exact hquiet rfl h
        | getNext =>
            cases hstep
            exact htake rfl (hgot _ _ _ rfl) fun _ _ => trivial
        | doall d =>
            cases hstep
            exact htake rfl (hgot _ _ _ rfl) fun x' hx => Doall.Left.obtain h hx
        | drain d =>
            cases hstep
            exact htake rfl (hgot _ _ _ rfl) fun x' hx => (Talk.obtain_rest hx).trans h
  | doall d =>
      simp only [clientStep] at hstep
      split at hstep
      · next q hq =>
        split at hstep
        · cases hstep
          exact hquiet rfl h
        · split at hstep
          · next m hm =>
            cases hstep
            exact hquiet rfl ⟨h, q, hq, hm⟩
          · cases hstep
      · next hq =>
        cases hstep
        have hi := List.getElem?_eq_none_iff.mp hq
        refine hquiet rfl ?_
        have hleft : d.Left x := h
        unfold Doall.Left at hleft
        rw [if_neg (by omega), List.drop_eq_nil_iff.mpr hi, List.map_nil] at hleft
        exact List.map_eq_nil_iff.mp hleft.symm
  | flushAll d s =>
      simp only [clientStep] at hstep
      split at hstep
      · cases hstep
        exact hquiet rfl h
      · cases hstep
        exact hquiet rfl h
  | drain d =>
      simp only [clientStep] at hstep
      split at hstep
      · cases hstep
        exact hquiet rfl h
      · cases hstep
        exact hquiet rfl trivial

/-- **A call** of `doqueries` or its caller. -/
theorem startCall_asks {t : Table} {c design : ℕ} {cl cl' : Client} {k : Call} {evs : List Event}
    (hstep : startCall t c cl k = .ok (cl', evs)) (hidle : cl.pc = .idle) (hcall : x.Calls design k) :
    ∃ x', Runs.replay (Talk.apply c) x evs = some x' ∧ cl'.pc.Asks x' := by
  have hrequest : ∀ m, x.Next m → ∃ x', Runs.replay (Talk.apply c) x [] = some x' ∧ (startRequest cl m).pc.Asks x' := by
    intro m hm
    refine ⟨x, rfl, ?_⟩
    unfold startRequest
    split
    · rw [hidle]
      trivial
    · exact hm
  have hgive : ∀ {ptr : ℕ} {msg : ℕ → Msg} {b : Bool}, sendReleaseMsg t c cl ptr msg b = .ok (cl', evs) →
      (msg (sub64 ptr sizeofElem)).isRequest = false → x.Settled → msg (sub64 ptr sizeofElem) ∈ x.handles →
      ∃ x', Runs.replay (Talk.apply c) x evs = some x' ∧ cl'.pc.Asks x' := by
    intro ptr msg b h hm hset hmem
    simp only [sendReleaseMsg] at h
    split at h
    · split at h
      · cases h
        refine ⟨{ x with handles := x.handles.erase (msg (sub64 ptr sizeofElem)) }, ?_, trivial⟩
        simp [Runs.replay, Talk.apply, Talk.send, hm, hset, hmem]
      · cases h
    · cases h
  cases k with
  | lookup key =>
      obtain ⟨rest, hnext⟩ := List.head?_eq_some_iff.mp hcall.2
      cases hstep
      exact hrequest _ ⟨rfl, rest, hnext⟩
  | insert key size =>
      obtain ⟨rest, hnext⟩ := List.head?_eq_some_iff.mp hcall.2
      cases hstep
      exact hrequest _ ⟨rfl, rest, hnext⟩
  | tryGetNext => exact hcall.elim
  | getNext =>
      simp only [startCall, Except.ok.injEq] at hstep
      split at hstep
      · cases hstep
        exact ⟨x, rfl, by rw [hidle]; trivial⟩
      · split at hstep
        · cases hstep
          exact ⟨x, rfl, trivial⟩
        · cases hstep
          obtain ⟨x', hx⟩ := Talk.obtain_some hcall.2.2 cl.pd.take.1
          refine ⟨x', ?_, ?_⟩
          · simp [Runs.replay, Talk.apply, hx]
          · show cl.pc.Asks x'
            rw [hidle]
            trivial
  | release ptr =>
      simp only [startCall] at hstep
      exact hgive hstep rfl hcall.1 hcall.2
  | markReady ptr =>
      simp only [startCall] at hstep
      exact hgive hstep rfl hcall.1 hcall.2
  | doall queries =>
      obtain ⟨-, -, hne, hqueries⟩ := hcall
      cases hstep
      refine ⟨x, rfl, ?_⟩
      have hlen := congrArg List.length hqueries
      rw [List.length_map, List.length_map] at hlen
      have hpos : 0 < queries.length := hlen ▸ List.length_pos_iff.mpr hne
      show (queries.drop 0).map HashQuery.msg = (if 0 < queries.length then x.next else x.rest).map some
      rw [if_pos hpos]
      exact hqueries

end

/-! ### Runs -/

section

variable {t : Table} {design c : ℕ} {bs : List (List Msg)} {st st' : Sys} {f : Fifo} {log evs : List Event}

/-- The servers and the thread that stops them leave the clients where they are. -/
theorem Coupled.step_aside (h : Coupled st f) {a : Act} (hstep : st.step a = .ok (st', evs))
    (hcall : ∀ c k, a ≠ .call c k) (hclient : ∀ c, a ≠ .client c) :
    (∀ c, (st'.client c).pc = (st.client c).pc) ∧ ∀ x, Runs.replay (Talk.apply c) x evs = some x := by
  cases a with
  | create values servers =>
      obtain ⟨st₁, h₁, heq⟩ := Outcome.map_ok.mp hstep
      cases heq
      unfold SmpHashTable.createClient at h₁
      split at h₁
      · split at h₁
        · cases h₁
          refine ⟨fun c' => ?_, fun _ => rfl⟩
          by_cases hc : c' = st.nclients
          · subst hc
            simp only [Function.update_self, (h.unborn st.nclients le_rfl).1]
          · exact congrArg Client.pc (Function.update_of_ne hc ..)
        · cases h₁
      · cases h₁
  | start stack =>
      obtain ⟨st₁, h₁, heq⟩ := Outcome.map_ok.mp hstep
      cases heq
      unfold SmpHashTable.startServers at h₁
      split at h₁
      · cases h₁
        exact ⟨fun _ => rfl, fun _ => rfl⟩
      · cases h₁
  | stop =>
      simp only [Sys.step] at hstep
      split at hstep
      · cases hstep
        exact ⟨fun _ => rfl, fun _ => rfl⟩
      · cases hstep
  | stopper =>
      obtain ⟨st₁, h₁, heq⟩ := Outcome.map_ok.mp hstep
      cases heq
      exact ⟨fun c' => (stopperStep_inb h₁ c' 0).1, fun _ => rfl⟩
  | call c' k => exact absurd rfl (hcall c' k)
  | client c' => exact absurd rfl (hclient c')
  | server s o =>
      simp only [Sys.step] at hstep
      split at hstep
      · refine ⟨(serverStep_frame hstep).1.pc, fun x => ?_⟩
        cases evs with
        | nil => rfl
        | cons ev evs =>
            obtain ⟨heq, c', op, resp, removed, rfl⟩ := serverStep_events hstep List.mem_cons_self
            cases heq
            rfl
      · cases hstep

/-- A client that takes a value has waited for one. -/
theorem Talk.Holds.waits {x : Talk} (h : x.Holds c f) (hcoup : Coupled st f) {s : ℕ} {b : Bool} {ret : ReadRet}
    (hpc : (st.client c).pc = .take s b ret) : x.awaited ≠ [] := by
  have hfetch := (hcoup.client c).pc
  rw [hpc] at hfetch
  obtain ⟨⟨m, unread, hunread⟩, -⟩ := hfetch
  rw [h.awaited, hunread]
  simp

/-- What the pending ring of an idle client holds is what it waits for. -/
theorem Talk.Holds.ring {x : Talk} (h : x.Holds c f) (hcoup : Coupled st f) (hidle : (st.client c).pc = .idle) :
    sub64 (st.client c).pd.pendingIndex (st.client c).pd.rdIndex = x.awaited.length ∧
      ((st.client c).pd.rdIndex = (st.client c).pd.pendingIndex ↔ x.awaited = []) := by
  have hpend := (hcoup.client c).pend
  rw [hidle] at hpend
  have hrep : PdRep (st.client c).pd ((f.session c).ready.map Prod.snd) ((f.session c).unread.map Prod.fst) := hpend
  refine ⟨?_, ?_⟩
  · rw [hrep.pending_sub, h.awaited]
    simp
  · rw [hrep.all_nil_iff, h.awaited]
    simp

/-- The messages of the queries of a batch. -/
theorem HashQuery.ok_of_msg {q : HashQuery} {m : Msg} (h : q.msg = some m) (hm : m.Ok) :
    q.key < 2 ^ 60 ∧ (q.optype = OPTYPE_INSERT → 0 < q.size ∧ q.size < 2 ^ 32) := by
  unfold HashQuery.msg at h
  split at h
  · next hlookup =>
    cases h
    refine ⟨hm, fun hinsert => ?_⟩
    rw [hlookup] at hinsert
    cases hinsert
  · split at h
    · cases h
      obtain ⟨hkey, hpos, hlt⟩ := hm
      exact ⟨hkey, fun _ => by omega⟩
    · cases h

/-- **The caller keeps the contract of the table** with its next call. -/
theorem Talk.Calls.ok {x : Talk} {k : Call} (h : x.Calls design k) (hcoup : Coupled st f)
    (hlog : (Fifo.init t).replay log = some f) (hholds : x.Holds c f) (hfollows : Talk.Follows c bs x log)
    (hbs : ∀ m ∈ bs.flatten, m.Ok) (hidle : (st.client c).pc = .idle) :
    k.Ok (st.client c) ∧ (Act.call c k).Returns t log := by
  have hnext : ∀ m ∈ x.next, m.Ok := fun m hm => hbs m (hfollows.next_mem hm)
  cases k with
  | lookup key => exact ⟨hnext _ (List.mem_of_mem_head? h.2), trivial⟩
  | insert key size => exact ⟨hnext _ (List.mem_of_mem_head? h.2), trivial⟩
  | tryGetNext => exact h.elim
  | getNext => exact ⟨trivial, trivial⟩
  | release ptr => exact ⟨trivial, f, hlog, hholds.handles ▸ h.2⟩
  | markReady ptr => exact ⟨trivial, f, hlog, hholds.handles ▸ h.2⟩
  | doall queries =>
      obtain ⟨-, hset, -, hqueries⟩ := h
      refine ⟨⟨(hholds.ring hcoup hidle).2.mpr hset.2, fun q hq => ?_⟩, trivial⟩
      have hmem : q.msg ∈ x.next.map some := by
        rw [← hqueries]
        exact List.mem_map_of_mem hq
      obtain ⟨m, hm, hmsg⟩ := List.mem_map.mp hmem
      exact HashQuery.ok_of_msg hmsg.symm (hnext m hm)

/-- Client `c` works in batches, and the others do nothing. -/
structure Working (c : ℕ) (bs : List (List Msg)) (st : Sys) (log : List Event) : Prop where
  idle : ∀ c', c' ≠ c → (st.client c').pc = .idle
  asks : ∃ x, Runs.replay (Talk.apply c) (Talk.start bs) log = some x ∧ (st.client c).pc.Asks x

theorem working_init (t : Table) (c : ℕ) (bs : List (List Msg)) : Working c bs (Sys.init t) [] :=
  ⟨fun _ _ => rfl, Talk.start bs, rfl, trivial⟩

theorem Working.step (h : Working c bs st log) (hcoup : Coupled st f)
    (hholds : ∀ x, Runs.replay (Talk.apply c) (Talk.start bs) log = some x → x.Holds c f) {a : Act}
    (hdo : a.Doqueries design c bs st log) (hstep : st.step a = .ok (st', evs)) :
    Working c bs st' (log ++ evs) := by
  obtain ⟨x, hx, hasks⟩ := h.asks
  -- client `c` makes a step
  have hown : ∀ {cl : Client}, (∃ x', Runs.replay (Talk.apply c) x evs = some x' ∧ cl.pc.Asks x') →
      Working c bs (st.setClient c cl) (log ++ evs) := by
    rintro cl ⟨x', hevs, hasks'⟩
    refine ⟨fun c' hne => ?_, x', ?_, ?_⟩
    · rw [← h.idle c' hne]
      exact congrArg Client.pc (Function.update_of_ne hne ..)
    · rw [Runs.replay_append, hx]
      exact hevs
    · have hself : (st.setClient c cl).client c = cl := Function.update_self ..
      rw [hself]
      exact hasks'
  have haside : (∀ c k, a ≠ .call c k) → (∀ c, a ≠ .client c) → Working c bs st' (log ++ evs) := by
    intro hcall hclient
    obtain ⟨hpc, hevs⟩ := hcoup.step_aside (c := c) hstep hcall hclient
    refine ⟨fun c' hne => (hpc c').trans (h.idle c' hne), x, ?_, hpc c ▸ hasks⟩
    rw [Runs.replay_append, hx]
    exact hevs x
  cases a with
  | call c' k =>
      obtain ⟨rfl, -, x₁, hx₁, hcalls⟩ := hdo
      rw [hx, Option.some.injEq] at hx₁
      subst hx₁
      simp only [Sys.step] at hstep
      split at hstep
      · next hidle =>
        split at hstep
        · obtain ⟨⟨cl, evs'⟩, h₁, heq⟩ := Outcome.map_ok.mp hstep
          cases heq
          exact hown (startCall_asks h₁ hidle hcalls)
        · cases hstep
      · cases hstep
  | client c' =>
      obtain ⟨⟨cl, evs'⟩, h₁, heq⟩ := Outcome.map_ok.mp hstep
      cases heq
      by_cases hc : c' = c
      · subst hc
        exact hown (clientStep_asks h₁ hasks fun s b ret hpc => (hholds x hx).waits hcoup hpc)
      · have hidle := h.idle c' hc
        simp only [clientStep, hidle] at h₁
        cases h₁
  | _ => exact haside (by simp) (by simp)

/-- What the log says about the client is what the queues say. -/
theorem Talk.holds {x : Talk} (hlog : (Fifo.init t).replay log = some f)
    (hx : Runs.replay (Talk.apply c) (Talk.start bs) log = some x) : x.Holds c f :=
  Runs.replay_both (R := fun x f => x.Holds c f) (Talk.holds_start c bs t)
    (fun h htalk happly => h.apply happly htalk) hx hlog

/-- **The contract**: what a caller of `doqueries` does is what the functions of the table ask of it. -/
theorem Act.Doqueries.ok {a : Act} (h : a.Doqueries design c bs st log) (hcoup : Coupled st f)
    (hlog : (Fifo.init t).replay log = some f) (hbs : ∀ m ∈ bs.flatten, m.Ok)
    (hstep : st.step a = .ok (st', evs)) : a.Ok st ∧ a.Returns t log := by
  cases a with
  | create values servers => exact ⟨h, trivial⟩
  | stop => exact ⟨h, trivial⟩
  | call c' k =>
      obtain ⟨rfl, hstopper, x, hx, hcalls⟩ := h
      simp only [Sys.step] at hstep
      split at hstep
      · next hidle =>
        have hfollows := Talk.follows hx
        obtain ⟨hok, hret⟩ := hcalls.ok hcoup hlog (Talk.holds hlog hx) hfollows hbs hidle
        exact ⟨⟨hstopper, hok⟩, hret⟩
      · cases hstep
  | start stack => exact ⟨trivial, trivial⟩
  | stopper => exact ⟨trivial, trivial⟩
  | client c' => exact ⟨trivial, trivial⟩
  | server s o => exact ⟨trivial, trivial⟩

/-- **A caller of `doqueries` keeps the contract and works in batches**, whatever the servers do in between. -/
theorem Sys.Doqueries.working (hbs : ∀ m ∈ bs.flatten, m.Ok) (h : Sys.Doqueries t design c bs st log) :
    Sys.Disciplined t st log ∧ Working c bs st log := by
  induction h with
  | start => exact ⟨.start, working_init t c bs⟩
  | step _ hdo hstep ih =>
      obtain ⟨hdis, hwork⟩ := ih
      obtain ⟨f, hlog, hcoup⟩ := reach_coupled hdis.reach
      exact ⟨hdis.step (hdo.ok hcoup hlog hbs hstep) hstep,
        hwork.step hcoup (fun x hx => Talk.holds hlog hx) hdo hstep⟩

/-- The assertions of the calls in progress hold. -/
theorem clientStep_ne_assertFailed {x : Talk} {n : ℕ} {cl : Client} (h : cl.pc.Asks x) :
    clientStep n c cl ≠ .error .assertFailed := by
  obtain ⟨pc, pd, box⟩ := cl
  cases pc with
  | write s m ret =>
      simp only [clientStep, if_pos (le_trans m.words_length_le (by decide : 2 ≤ INPB_SIZE))]
      split <;> simp
  | doall d =>
      simp only [clientStep]
      split
      · next q hq =>
        split
        · simp
        · split
          · simp
          · next hnone =>
            have hleft : d.Left x := h
            obtain ⟨hi, hget⟩ := List.getElem?_eq_some_iff.mp hq
            unfold Doall.Left at hleft
            rw [List.drop_eq_getElem_cons hi, List.map_cons, hget, hnone] at hleft
            obtain ⟨a, _, _, ha, _⟩ := List.map_eq_cons_iff.mp hleft.symm
            cases ha
      · simp
  | take s b ret =>
      simp only [clientStep]
      split <;> simp
  | flush s pc ret =>
      simp only [clientStep]
      split <;> simp
  | window m =>
      simp only [clientStep]
      split <;> simp
  | flushAll d s =>
      simp only [clientStep]
      split <;> simp
  | drain d =>
      simp only [clientStep]
      split <;> simp
  | idle => simp [clientStep]
  | append s m ret => simp [clientStep]
  | load s b ret => simp [clientStep]

/-- Only client `c` sends anything. -/
theorem Talk.sender {x : Talk} (hx : Runs.replay (Talk.apply c) (Talk.start bs) log = some x) {c' s : ℕ} {m : Msg}
    (hmem : m ∈ issued c' s log) : c' = c := by
  refine Runs.replay_history (P := fun _ log => ∀ m ∈ issued c' s log, c' = c)
    (fun m hm => by cases hm) (fun {x x' log ev} ih htalk m hm => ?_) hx m hmem
  rw [issued_append, List.mem_append] at hm
  rcases hm with hm | hm
  · exact ih m hm
  · cases ev with
    | issue c₁ s₁ m₁ =>
        simp only [Talk.apply] at htalk
        split at htalk
        · next hc =>
          simp only [issued, List.filterMap_cons, List.filterMap_nil] at hm
          split at hm
          · cases hm
          · next heq =>
            split at heq
            · next hwho => exact hwho.1.symm.trans hc
            · cases heq
        · cases htalk
    | _ => cases hm

/-- The sizes of the inserts executed are those of the batches. -/
theorem Talk.Follows.sized {x : Talk} (h : Talk.Follows c bs x log)
    (hx : Runs.replay (Talk.apply c) (Talk.start bs) log = some x) (hlog : (Fifo.init t).replay log = some f)
    (hbs : ∀ m ∈ bs.flatten, m.Ok) : ∀ e ∈ log, e.Sized := by
  intro e he
  cases e with
  | exec s c' op o resp removed =>
      cases op with
      | insert key size =>
          have hexec : Op.insert key size ∈ executed c' s log :=
            List.mem_filterMap.mpr ⟨_, he, by simp⟩
          have hissued := (Fifo.replay_told hlog c').issued_eq s
          have hmem : Op.insert key size ∈ (issued c' s log).map Msg.op := by
            rw [hissued]
            exact List.mem_append_left _ hexec
          obtain ⟨m, hm, hop⟩ := List.mem_map.mp hmem
          have hc := Talk.sender hx hm
          subst hc
          cases m with
          | insert k size' =>
              obtain ⟨ev, hev, heq⟩ := List.mem_filterMap.mp hm
              have hacc : (s, Msg.insert k size') ∈ accepted c' log := by
                cases ev with
                | issue c₁ s₁ m₁ =>
                    simp only at heq
                    split at heq
                    · next hwho =>
                      cases heq
                      exact List.mem_filterMap.mpr ⟨_, hev, by simp [hwho.1, hwho.2, Msg.isRequest, Msg.op, Op.isRequest]⟩
                    · cases heq
                | _ => cases heq
              have hbatch : Msg.insert k size' ∈ bs.flatten := by
                rw [requests_of_plan h.plan, ← h.accepted_eq]
                exact List.mem_append_left _ (List.mem_map_of_mem hacc)
              obtain ⟨-, hpos, hlt⟩ := hbs _ hbatch
              cases hop
              show 0 ≤ intOfWord (wordOfInt size') ∧ intOfWord (wordOfInt size') < 2 ^ 31
              rw [intOfWord_wordOfInt (by omega) hlt]
              exact ⟨hpos.le, hlt⟩
          | lookup k => cases hop
          | release k => cases hop
          | markReady k => cases hop
      | _ => trivial
  | _ => trivial

/-- No batch is left when no request is. -/
theorem later_of_plan {past later : List (List Msg)} {batch : List Msg} (hplan : past ++ batch :: later = [] :: bs)
    (hne : ∀ b ∈ bs, b ≠ []) (hnil : later.flatten = []) : later = [] := by
  refine List.eq_nil_iff_forall_not_mem.mpr fun b hb => hne b ?_ (List.flatten_eq_nil_iff.mp hnil b hb)
  cases past with
  | nil => exact (List.cons_eq_cons.mp hplan).2 ▸ hb
  | cons p past =>
      rw [← (List.cons_eq_cons.mp hplan).2]
      exact List.mem_append_right _ (List.mem_cons_of_mem _ hb)

/-- A caller that has a value for every request of its batches has finished. -/
theorem Talk.Follows.done {x : Talk} (h : Talk.Follows c bs x log) (hlog : (Fifo.init t).replay log = some f)
    (hholds : x.Holds c f) (hne : ∀ b ∈ bs, b ≠ []) (hall : (obtained c log).length = bs.flatten.length) :
    x.Settled ∧ x.later = [] := by
  have htold := Fifo.replay_told hlog c
  have hacc := congrArg List.length h.accepted_eq
  have hplan := congrArg List.length (requests_of_plan h.plan)
  rw [← hall, htold.obtained_eq] at hplan
  rw [htold.accepted_eq] at hacc
  simp only [List.length_map, List.length_append] at hacc hplan
  have hrest : x.rest = [] := List.eq_nil_of_length_eq_zero (by omega)
  have hready : (f.session c).ready = [] := List.eq_nil_of_length_eq_zero (by omega)
  have hunread : (f.session c).unread = [] := List.eq_nil_of_length_eq_zero (by omega)
  refine ⟨⟨hrest, ?_⟩, later_of_plan h.plan hne (List.eq_nil_of_length_eq_zero (by omega))⟩
  rw [hholds.awaited, hready, hunread]
  rfl

end

/-- **The callers keep the contract of the table.**  A client that calls `doqueries` for batches that fit in the pending
ring, and gives the values of each batch back before the next, keeps every promise the functions of the table ask
for; no request it makes is refused, it waits for no value that is not coming, and no assertion in its calls fails. -/
theorem doqueries_contract {t : Table} {design c : ℕ} {bs : List (List Msg)} (hbs : ∀ m ∈ bs.flatten, m.Ok)
    (hroom : ∀ b ∈ bs, b.length ≤ MAX_PENDING_SIZE) {st : Sys} {log : List Event}
    (h : Sys.Doqueries t design c bs st log) :
    Sys.Disciplined t st log ∧ st.step (.client c) ≠ .error .assertFailed ∧
      ∀ k, (Act.call c k).Doqueries design c bs st log → (st.client c).pc = .idle → ¬ k.Refused (st.client c) := by
  obtain ⟨hdis, hwork⟩ := h.working hbs
  obtain ⟨f, hlog, hcoup⟩ := reach_coupled hdis.reach
  obtain ⟨x, hx, hasks⟩ := hwork.asks
  have hholds := Talk.holds hlog hx
  have hfollows := Talk.follows hx
  refine ⟨hdis, fun herr => ?_, fun k hdo hidle => ?_⟩
  · have hnot := clientStep_ne_assertFailed (n := st.nservers) (c := c) hasks
    simp only [Sys.step] at herr
    cases hstep : clientStep st.nservers c (st.client c) with
    | ok r =>
        rw [hstep] at herr
        cases herr
    | error e =>
        rw [hstep] at herr hnot
        cases herr
        exact hnot rfl
  · obtain ⟨-, -, x₁, hx₁, hcalls⟩ := hdo
    rw [hx, Option.some.injEq] at hx₁
    subst hx₁
    obtain ⟨hsub, hnil⟩ := hholds.ring hcoup hidle
    have hrequest : ∀ {m : Msg}, x.next.head? = some m →
        ¬ sub64 (st.client c).pd.pendingIndex (st.client c).pd.rdIndex ≥ MAX_PENDING_SIZE := by
      intro m hhead
      have hne : x.next ≠ [] := fun hnil => by
        rw [hnil] at hhead
        cases hhead
      have hlt := hfollows.room hx hroom hne
      omega
    cases k with
    | lookup key => exact hrequest hcalls.2
    | insert key size => exact hrequest hcalls.2
    | tryGetNext => exact hcalls.elim
    | getNext => exact fun hrefused => hcalls.2.2 (hnil.mp hrefused)
    | release ptr => exact id
    | markReady ptr => exact id
    | doall queries => exact id

/-- A call and `n` steps of the client and of the server in turn. -/
def callRun (k : Call) (alloc : List (Option ℕ)) (n : ℕ) : List Act :=
  .call 0 k :: (List.replicate n [.client 0, .server 0 ⟨alloc, []⟩]).flatten

/-- The batches of `batchesMade` with design 1. -/
def doqueriesRun : List Act := List.flatten [
  [.create (fun _ => 0) (fun _ => 0), .start fun _ _ => 0],
  callRun (.insert 5 8) [some 64] 3, callRun (.lookup 5) [some 64] 3,
  callRun .getNext [some 64] 24, callRun .getNext [] 2, callRun (.markReady 128) [] 6,
  callRun (.lookup 5) [] 3, callRun (.insert 6 8) [some 256] 3,
  callRun .getNext [some 256] 24, callRun .getNext [] 2, callRun (.release 128) [] 2, callRun (.markReady 320) [] 7]

theorem doqueries_contract_two : ∃ st log, Sys.Doqueries (createHashTable 128 1 .lru) 1 0 batchesMade st log ∧
    obtained 0 log = [128, 0, 128, 320] ∧ Sys.Disciplined (createHashTable 128 1 .lru) st log ∧
    st.step (.client 0) ≠ .error .assertFailed := by
  have hval : (Runs.run Sys.step (fun st log a => a.Doqueries 1 0 batchesMade st log) doqueriesRun
      (Sys.init (createHashTable 128 1 .lru)) []).map (fun r => obtained 0 r.2) = some [128, 0, 128, 320] := by
    decide +kernel
  obtain ⟨⟨st, log⟩, hrun, hobtained⟩ := Option.map_eq_some_iff.mp hval
  have hreach : Sys.Doqueries (createHashTable 128 1 .lru) 1 0 batchesMade st log := Runs.Reach.start.run hrun
  obtain ⟨hdis, hstep, -⟩ := doqueries_contract (by decide) (by decide) hreach
  exact ⟨st, log, hreach, hobtained, hdis, hstep⟩

section

variable {maxSize nservers design c s : ℕ} {bs : List (List Msg)} {st : Sys} {log : List Event}

/-- The values that the caller has obtained so far are those that are expected. -/
theorem Sys.Doqueries.agrees (hmax : maxSize / nservers < 2 ^ 63) (hbs : ∀ m ∈ bs.flatten, m.Ok)
    (h : Sys.Doqueries (createHashTable maxSize nservers .lru) design c bs st log)
    (halloc : ∀ e ∈ log, e.Allocated) (hlen : log.length + 2 < 2 ^ 63) (hs : s < nservers) :
    Agrees (expected (maxSize / nservers) nservers s bs).answers (valuesAt nservers s bs (obtained c log)) := by
  obtain ⟨hdis, hwork⟩ := h.working hbs
  obtain ⟨x, hx, -⟩ := hwork.asks
  obtain ⟨f, hlog, -⟩ := reach_coupled hdis.reach
  have hsized := (Talk.follows hx).sized hx hlog hbs
  exact disciplined_agrees hmax hdis (fun e he => ⟨hsized e he, halloc e he⟩) hlen hx hs

/-- What the partitions hold when it has obtained all. -/
theorem Sys.Doqueries.entries (hmax : maxSize / nservers < 2 ^ 63) (hbs : ∀ m ∈ bs.flatten, m.Ok)
    (hne : ∀ b ∈ bs, b ≠ []) (h : Sys.Doqueries (createHashTable maxSize nservers .lru) design c bs st log)
    (halloc : ∀ e ∈ log, e.Allocated) (hlen : log.length + 2 < 2 ^ 63) (hs : s < nservers)
    (hall : (obtained c log).length = bs.flatten.length) :
    ((st.table.part s).lru.map (view st.table.mem)).map (fun e => (e.key, e.size))
      = (expected (maxSize / nservers) nservers s bs).cache.entries.map fun e => (e.key, e.size) := by
  obtain ⟨hdis, hwork⟩ := h.working hbs
  obtain ⟨x, hx, -⟩ := hwork.asks
  obtain ⟨f, hlog, -⟩ := reach_coupled hdis.reach
  have hsized := (Talk.follows hx).sized hx hlog hbs
  obtain ⟨hset, hlater⟩ := (Talk.follows hx).done hlog (Talk.holds hlog hx) hne hall
  exact disciplined_entries hmax hdis (fun e he => ⟨hsized e he, halloc e he⟩) hlen hx hset hlater hs

end

/-- **`doqueries` answers as a cache of numbers.**  The values that the callers of `doqueries` obtain, with design 1 or 2
and however the servers' passes interleave with their calls, are those that each server's cache of numbers answers to
the batches, round by round; and once they have them all, the partitions hold the same keys with the same sizes in the
same order of use. -/
theorem doqueries_answered {maxSize nservers : ℕ} (hmax : maxSize / nservers < 2 ^ 63) {design c : ℕ}
    {bs : List (List Msg)} (hbs : ∀ m ∈ bs.flatten, m.Ok) (hne : ∀ b ∈ bs, b ≠ []) {st : Sys} {log : List Event}
    (h : Sys.Doqueries (createHashTable maxSize nservers .lru) design c bs st log)
    (halloc : ∀ e ∈ log, e.Allocated) (hlen : log.length + 2 < 2 ^ 63) {s : ℕ} (hs : s < nservers) :
    Agrees (expected (maxSize / nservers) nservers s bs).answers (valuesAt nservers s bs (obtained c log)) ∧
      ((obtained c log).length = bs.flatten.length →
        ((st.table.part s).lru.map (view st.table.mem)).map (fun e => (e.key, e.size))
          = (expected (maxSize / nservers) nservers s bs).cache.entries.map fun e => (e.key, e.size)) :=
  ⟨h.agrees hmax hbs halloc hlen hs, h.entries hmax hbs hne halloc hlen hs⟩

theorem doqueries_answered_twice : ∃ st log, Sys.Doqueries (createHashTable 128 1 .lru) 1 0 batchesMade st log ∧
    obtained 0 log = [128, 0, 128, 320] ∧
    Agrees (expected 128 1 0 batchesMade).answers (valuesAt 1 0 batchesMade (obtained 0 log)) ∧
    ((st.table.part 0).lru.map (view st.table.mem)).map (fun e => (e.key, e.size)) = [(6, 128)] := by
  have hval : (Runs.run Sys.step (fun st log a => a.Doqueries 1 0 batchesMade st log) doqueriesRun
      (Sys.init (createHashTable 128 1 .lru)) []).map
        (fun r => (obtained 0 r.2, r.2.length, decide (∀ e ∈ r.2, e.Allocated)))
      = some ([128, 0, 128, 320], 20, true) := by
    decide +kernel
  obtain ⟨⟨st, log⟩, hrun, heq⟩ := Option.map_eq_some_iff.mp hval
  have hreach : Sys.Doqueries (createHashTable 128 1 .lru) 1 0 batchesMade st log := Runs.Reach.start.run hrun
  obtain ⟨hobtained, heq⟩ := Prod.mk.inj heq
  obtain ⟨hlen, hgood⟩ := Prod.mk.inj heq
  simp only at hobtained hlen
  obtain ⟨hanswered, hend⟩ := doqueries_answered (by decide) (by decide) (by decide) hreach
    (of_decide_eq_true hgood) (by rw [hlen]; decide) Nat.one_pos
  exact ⟨st, log, hreach, hobtained, hanswered, (hend (by rw [hobtained]; rfl)).trans (by decide)⟩

end SmpHashTable
