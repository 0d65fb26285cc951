import SmpHashTable.ClientInv

/-!
# The system refines the queues

`Coupled` ties a state of the system to a state of the abstract queues: same table, and every
client's invariant with its session.  Every step of every thread keeps it while the events of the
step are replayed on the queues, so every run's log replays.
-/

namespace SmpHashTable

/-- Where a flush of client `c`'s buffer for server `s` stands, in whichever thread. -/
def Sys.flushing (st : Sys) (c s : ℕ) : Option FlushPc :=
  match st.stopper with
  | .flush i k pc => if k = c ∧ i = s then some pc else none
  | _ => (st.client c).pc.flushing s

/-- The server's loop runs over clients that exist. -/
def ServerPc.Within (nclients : ℕ) : ServerPc → Prop
  | .poll _ n => n ≤ nclients
  | .read i n _ => i < n ∧ n ≤ nclients
  | .exec i n _ _ _ => i < n ∧ n ≤ nclients
  | .write i n _ _ => i < n ∧ n ≤ nclients
  | _ => True

structure Coupled (st : Sys) (f : Fifo) : Prop where
  table : f.table = st.table
  matched : ∀ c, (f.session c).Match
  client : ∀ c, ClientInv st.nservers (st.client c) (fun s => (st.server s).turn c) (st.flushing c)
    (f.session c)
  within : ∀ s, (st.server s).pc.Within st.nclients
  unborn : ∀ c, st.nclients ≤ c → (st.client c).pc = .idle ∧ f.session c = Session.empty
  stopping : st.stopper ≠ .idle → ∀ c, (st.client c).pc = .idle

theorem coupled_init (t : Table) : Coupled (Sys.init t) (Fifo.init t) where
  table := rfl
  matched := fun _ => Session.empty_match
  client := fun _ => clientInv_zero _ _ _
  within := fun _ => trivial
  unborn := fun _ _ => ⟨rfl, rfl⟩
  stopping := fun h => absurd rfl h

section

variable {st st' : Sys} {f f' : Fifo} {evs : List Event}

theorem Sys.flushing_of_idle (h : st.stopper = .idle) (c : ℕ) :
    st.flushing c = (st.client c).pc.flushing := by
  funext s
  simp only [Sys.flushing, h]

/-- Outside `inpb_flush` the stopping thread flushes nothing, and neither do idle clients. -/
theorem Sys.flushing_none (hstop : ∀ i k pc, st.stopper ≠ .flush i k pc) {c : ℕ}
    (hidle : (st.client c).pc = .idle) : st.flushing c = fun _ => none := by
  funext s
  unfold Sys.flushing
  split
  · next i k pc heq => exact absurd heq (hstop i k pc)
  · rw [hidle]
    rfl

theorem Server.turn_away {srv : Server} {nclients c : ℕ} (h : srv.pc.Within nclients)
    (hc : nclients ≤ c) : srv.turn c = .away := by
  unfold Server.turn
  cases hpc : srv.pc with
  | read i n pc =>
      rw [hpc] at h
      exact if_neg (by have := h.1; have := h.2; omega)
  | exec i n count k j =>
      rw [hpc] at h
      exact if_neg (by have := h.1; have := h.2; omega)
  | write i n j m =>
      rw [hpc] at h
      exact if_neg (by have := h.1; have := h.2; omega)
  | _ => rfl

theorem ServerPc.Within.mono {pc : ServerPc} {n n' : ℕ} (h : pc.Within n) (hn : n ≤ n') :
    pc.Within n' := by
  cases pc with
  | poll i k => exact le_trans h hn
  | read i k pc => exact ⟨h.1, le_trans h.2 hn⟩
  | exec i k count a j => exact ⟨h.1, le_trans h.2 hn⟩
  | write i k j m => exact ⟨h.1, le_trans h.2 hn⟩
  | _ => trivial

/-! ### Clients -/

/-- A step of client `c` while the servers are not being stopped. -/
theorem Coupled.setClient (h : Coupled st f) (hstop : st.stopper = .idle) {c : ℕ} {cl : Client}
    (hc : c < st.nclients)
    (hfollow : Follows c f evs
      (ClientInv st.nservers cl (fun s => (st.server s).turn c) cl.pc.flushing)) :
    ∃ f', f.replay evs = some f' ∧ Coupled (st.setClient c cl) f' := by
  obtain ⟨f', hrun, ht, hother, hcl⟩ := hfollow
  refine ⟨f', hrun, ht.trans h.table, Fifo.replay_match h.matched hrun, ?_, h.within, ?_, ?_⟩
  · intro c'
    rw [Sys.flushing_of_idle (by exact hstop)]
    by_cases heq : c' = c
    · subst heq
      simpa [Sys.setClient, Sys.nservers] using hcl
    · have hold := h.client c'
      rw [Sys.flushing_of_idle hstop] at hold
      rw [hother c' heq]
      simpa [Sys.setClient, Sys.nservers, heq] using hold
  · intro c' hc'
    have hne : c' ≠ c := fun heq => absurd hc (by rw [← heq]; exact Nat.not_lt.mpr hc')
    rw [hother c' hne]
    simpa [Sys.setClient, hne] using h.unborn c' hc'
  · intro hne
    exact absurd hstop hne

theorem Coupled.clientStep (h : Coupled st f) {c : ℕ} {cl : Client}
    (hstep : clientStep st.nservers c (st.client c) = .ok (cl, evs)) :
    ∃ f', f.replay evs = some f' ∧ Coupled (st.setClient c cl) f' := by
  -- a client in a call exists, and nobody stops the servers
  have hbusy : (st.client c).pc ≠ .idle := by
    intro hidle
    simp only [SmpHashTable.clientStep, hidle] at hstep
    cases hstep
  have hc : c < st.nclients := by
    by_contra hge
    exact hbusy (h.unborn c (Nat.le_of_not_lt hge)).1
  have hstop : st.stopper = .idle := by
    by_contra hne
    exact hbusy (h.stopping hne c)
  have hcl := h.client c
  rw [Sys.flushing_of_idle hstop] at hcl
  exact h.setClient hstop hc (clientStep_inv (h.matched c) (by rw [h.table]; rfl) hcl hstep)

theorem Coupled.startCall (h : Coupled st f) {c : ℕ} {cl : Client} {k : Call}
    (hstop : st.stopper = .idle) (hc : c < st.nclients) (hidle : (st.client c).pc = .idle)
    (hok : k.Ok (st.client c)) (hstep : startCall st.table c (st.client c) k = .ok (cl, evs)) :
    ∃ f', f.replay evs = some f' ∧ Coupled (st.setClient c cl) f' := by
  have hcl := h.client c
  rw [Sys.flushing_of_idle hstop] at hcl
  rw [← h.table] at hstep
  exact h.setClient hstop hc (startCall_inv hidle hok hcl hstep)

theorem Coupled.createClient (h : Coupled st f) (hstop : st.stopper = .idle) {values servers : ℕ → ℕ}
    (hstep : createClient st values servers = .ok st') : Coupled st' f := by
  unfold SmpHashTable.createClient at hstep
  split at hstep
  · split at hstep
    · cases hstep
      refine ⟨h.table, h.matched, ?_, fun s => (h.within s).mono (Nat.le_succ _), ?_,
        fun hne => absurd hstop hne⟩
      · intro c
        rw [Sys.flushing_of_idle (by exact hstop)]
        by_cases heq : c = st.nclients
        · subst heq
          have haway : (fun s => (st.server s).turn st.nclients) = fun _ => .away :=
            funext fun s => Server.turn_away (h.within s) le_rfl
          have hz := clientInv_zero st.nservers values servers
          rw [(h.unborn _ le_rfl).2]
          simp only [Function.update_self, haway]
          exact hz
        · have hold := h.client c
          rw [Sys.flushing_of_idle hstop] at hold
          simpa [heq, Sys.nservers] using hold
      · intro c hc
        have hc' : st.nclients + 1 ≤ c := hc
        have hne : c ≠ st.nclients := by omega
        have hold := h.unborn c (by omega)
        simpa [hne] using hold
    · cases hstep
  · cases hstep

/-! ### The stopping thread and the start of the servers -/

/-- Changes that no client sees. -/
theorem Coupled.congr (h : Coupled st f) (htable : st'.table = st.table)
    (hnclients : st'.nclients = st.nclients) (hclient : st'.client = st.client)
    (hturn : ∀ s c, (st'.server s).turn c = (st.server s).turn c)
    (hwithin : ∀ s, (st'.server s).pc.Within st.nclients)
    (hfl : ∀ c, st'.flushing c = st.flushing c)
    (hstop : st'.stopper ≠ .idle → ∀ c, (st.client c).pc = .idle) : Coupled st' f := by
  have hn : st'.nservers = st.nservers := congrArg Table.nservers htable
  refine ⟨h.table.trans htable.symm, h.matched, ?_, ?_, ?_, ?_⟩
  · intro c
    have hfun : (fun s => (st'.server s).turn c) = fun s => (st.server s).turn c :=
      funext fun s => hturn s c
    rw [hn, hclient, hfun, hfl]
    exact h.client c
  · intro s
    rw [hnclients]
    exact hwithin s
  · intro c hc
    rw [hclient]
    exact h.unborn c (hnclients ▸ hc)
  · intro hne c
    rw [hclient]
    exact hstop hne c

theorem Coupled.startServers (h : Coupled st f) {stack : ℕ → ℕ → ℕ}
    (hstep : startServers st stack = .ok st') : Coupled st' f := by
  unfold SmpHashTable.startServers at hstep
  split at hstep
  · next hc =>
    cases hstep
    obtain ⟨hidle, hret⟩ := hc
    refine h.congr rfl rfl rfl ?_ ?_ (fun c => rfl) (fun hne => absurd hidle hne)
    · intro s c
      by_cases hs : s < st.nservers
      · have hpc := hret s (List.mem_range.mpr hs)
        simp [hs, Server.turn, hpc]
      · simp [hs]
    · intro s
      by_cases hs : s < st.nservers
      · simp [hs, ServerPc.Within]
      · simpa [hs] using h.within s
  · cases hstep

/-- The stopping thread touches the buffer of client `k` for server `i` only. -/
theorem Coupled.stopFlush (h : Coupled st f) {i k : ℕ} (fl fl' : Option FlushPc)
    (htable : st'.table = st.table) (hnclients : st'.nclients = st.nclients)
    (hserver : st'.server = st.server) (hidle : ∀ c, (st.client c).pc = .idle)
    (hclient : ∀ c, (st'.client c).pc = .idle ∧ (st'.client c).pd = (st.client c).pd ∧
      ∀ s, ¬ (k = c ∧ i = s) → (st'.client c).box s = (st.client c).box s)
    (hold : ∀ c s, st.flushing c s = if k = c ∧ i = s then fl else none)
    (hnew : ∀ c s, st'.flushing c s = if k = c ∧ i = s then fl' else none)
    (hbox : ∀ turn t ans, BoxInv ((st.client k).box i) turn fl t ans →
      BoxInv ((st'.client k).box i) turn fl' t ans) : Coupled st' f := by
  have hn : st'.nservers = st.nservers := congrArg Table.nservers htable
  refine ⟨h.table.trans htable.symm, h.matched, ?_, ?_, ?_, fun _ c => (hclient c).1⟩
  · intro c
    obtain ⟨hpc, hpd, hboxes⟩ := hclient c
    have hcl := h.client c
    have hpend := hcl.pend
    rw [hidle c] at hpend
    rw [hn, hserver]
    refine ⟨?_, by rw [hpc, hpd]; exact hpend, by rw [hpc]; trivial, by rw [hpc]; simp⟩
    intro s
    obtain ⟨t, ht, hb⟩ := hcl.box s
    rw [hidle c] at ht
    refine ⟨t, by rw [hpc]; exact ht, ?_⟩
    rw [hold] at hb
    rw [hnew]
    by_cases hcs : k = c ∧ i = s
    · obtain ⟨rfl, rfl⟩ := hcs
      rw [if_pos ⟨rfl, rfl⟩] at hb ⊢
      exact hbox _ t _ hb
    · rw [if_neg hcs] at hb ⊢
      rw [hboxes s hcs]
      exact hb
  · intro s
    rw [hserver, hnclients]
    exact h.within s
  · intro c hc
    exact ⟨(hclient c).1, (h.unborn c (hnclients ▸ hc)).2⟩

/-- What one write to a buffer leaves as it was. -/
theorem setIn_other (k i : ℕ) (b : InputBuffer) (hidle : ∀ c, (st.client c).pc = .idle) (c : ℕ) :
    (Function.update st.client k ((st.client k).setIn i b) c).pc = .idle ∧
      (Function.update st.client k ((st.client k).setIn i b) c).pd = (st.client c).pd ∧
      ∀ s, ¬ (k = c ∧ i = s) →
        (Function.update st.client k ((st.client k).setIn i b) c).box s = (st.client c).box s := by
  by_cases hc : c = k
  · subst hc
    rw [Function.update_self]
    refine ⟨hidle c, rfl, ?_⟩
    intro s hne
    exact Function.update_of_ne (fun heq => hne ⟨rfl, heq.symm⟩) _ _
  · rw [Function.update_of_ne hc]
    exact ⟨hidle c, rfl, fun _ _ => rfl⟩

theorem Coupled.stopperStep (h : Coupled st f) (hstep : stopperStep st = .ok st') : Coupled st' f := by
  unfold SmpHashTable.stopperStep at hstep
  have hidle : st.stopper ≠ .idle → ∀ c, (st.client c).pc = .idle := h.stopping
  -- between flushes the thread touches no buffer
  have hquiet : ∀ st₁ : Sys, st₁.client = st.client → (∀ i k pc, st.stopper ≠ .flush i k pc) →
      (∀ i k pc, st₁.stopper ≠ .flush i k pc) → st.stopper ≠ .idle →
      ∀ c, st₁.flushing c = st.flushing c := by
    intro st₁ hcl hno hno₁ hne c
    rw [Sys.flushing_none hno (hidle hne c), Sys.flushing_none hno₁ (by rw [hcl]; exact hidle hne c)]
  cases hpc : st.stopper with
  | idle =>
      rw [hpc] at hstep
      cases hstep
  | loop i k =>
      have hne : st.stopper ≠ .idle := by rw [hpc]; simp
      simp only [hpc] at hstep
      cases hstep
      by_cases hi : i < st.nservers
      · by_cases hk : k < st.nclients
        · -- a flush begins
          simp only [hi, hk, if_true]
          refine h.stopFlush none (some .enter) rfl rfl rfl (hidle hne)
            (fun c => ⟨hidle hne c, rfl, fun _ _ => rfl⟩) ?_ (fun c s => rfl)
            (fun turn t ans hb => hb.enterFlush)
          intro c s
          rw [Sys.flushing_none (by simp [hpc]) (hidle hne c)]
          split <;> rfl
        · simp only [hi, hk, if_true, if_false]
          exact h.congr rfl rfl rfl (fun _ _ => rfl) h.within
            (hquiet _ rfl (by simp [hpc]) (by simp) hne) (fun _ => hidle hne)
      · simp only [hi, if_false]
        exact h.congr rfl rfl rfl (fun _ _ => rfl) h.within
          (hquiet _ rfl (by simp [hpc]) (by simp) hne) (fun _ => hidle hne)
  | flush i k pc =>
      have hne : st.stopper ≠ .idle := by rw [hpc]; simp
      have hold : ∀ c s, st.flushing c s = if k = c ∧ i = s then some pc else none := by
        intro c s
        simp only [Sys.flushing, hpc]
      simp only [hpc] at hstep
      split at hstep
      · next b pc' heq =>
        cases hstep
        refine h.stopFlush (some pc) (some pc') rfl rfl rfl (hidle hne) (setIn_other k i b (hidle hne)) hold
          (fun c s => rfl) ?_
        intro turn t ans hb
        have hf := hb.flushStep
        rw [heq] at hf
        simpa [Client.setIn] using hf
      · next b heq =>
        cases hstep
        refine h.stopFlush (some pc) none rfl rfl rfl (hidle hne) (setIn_other k i b (hidle hne)) hold ?_ ?_
        · intro c s
          rw [Sys.flushing_none (by simp) (setIn_other k i b (hidle hne) c).1]
          split <;> rfl
        · intro turn t ans hb
          have hf := hb.flushStep
          rw [heq] at hf
          simpa [Client.setIn] using hf.1
  | quit =>
      have hne : st.stopper ≠ .idle := by rw [hpc]; simp
      simp only [hpc] at hstep
      cases hstep
      exact h.congr rfl rfl rfl (fun _ _ => rfl) h.within
        (hquiet _ rfl (by simp [hpc]) (by simp) hne) (fun _ => hidle hne)
  | join i =>
      have hne : st.stopper ≠ .idle := by rw [hpc]; simp
      simp only [hpc] at hstep
      split at hstep
      · split at hstep
        · cases hstep
          exact h.congr rfl rfl rfl (fun _ _ => rfl) h.within
            (hquiet _ rfl (by simp [hpc]) (by simp) hne) (fun _ => hidle hne)
        · cases hstep
      · cases hstep
        exact h.congr rfl rfl rfl (fun _ _ => rfl) h.within
          (hquiet _ rfl (by simp [hpc]) (by simp) hne) (fun _ => hidle hne)

/-! ### Server threads -/

theorem DoallRep.congr {n : ℕ} {d : Doall} {x : Session} (h : DoallRep n d x) (todo : ℕ → List Msg)
    (ans : ℕ → List (Msg × ℕ)) : DoallRep n d { x with todo := todo, ans := ans } :=
  ⟨h.ready, h.le, h.le_length, h.unread, h.history, h.valid, h.count, h.window⟩

theorem PcInv.congr {n : ℕ} {pc : ClientPc} {x : Session} (h : PcInv n x pc) (todo : ℕ → List Msg)
    (ans : ℕ → List (Msg × ℕ)) : PcInv n { x with todo := todo, ans := ans } pc := by
  have hsend : ∀ {s m ret}, SendInv n x s m ret →
      SendInv n { x with todo := todo, ans := ans } s m ret := by
    intro s m ret hs
    cases ret <;> exact hs
  have hfetch : ∀ {s ret}, FetchInv x s ret → FetchInv { x with todo := todo, ans := ans } s ret := by
    intro s ret hs
    cases ret <;> exact hs
  cases pc with
  | write s m ret => exact hsend h
  | append s m ret => exact hsend h
  | load s b ret => exact hfetch h
  | take s b ret => exact hfetch h
  | flush s pc ret =>
      cases ret with
      | write m ret => exact hsend h
      | read ret => exact hfetch h
      | release => trivial
      | doall d => exact h
  | idle => trivial
  | window m => exact h
  | doall d => trivial
  | flushAll d s => exact h
  | drain d => exact h

/-- The server changes one box of a client and the queues behind it. -/
theorem ClientInv.serve {n s : ℕ} {cl : Client} {turn : ℕ → Turn} {fl : ℕ → Option FlushPc}
    {x : Session} (h : ClientInv n cl turn fl x) {b : Box} (turn' : ℕ → Turn) (todo : ℕ → List Msg)
    (ans : ℕ → List (Msg × ℕ)) (hturn : ∀ s', s' ≠ s → turn' s' = turn s')
    (htodo : ∀ s', s' ≠ s → todo s' = x.todo s') (hans : ∀ s', s' ≠ s → ans s' = x.ans s')
    (hidx : b.inb.localIndex = (cl.box s).inb.localIndex)
    (hs : ∀ t, x.todo s = t ++ cl.pc.sending s →
      BoxInv (cl.box s) (turn s) (fl s) t ((x.ans s).map Prod.snd) →
      ∃ t', todo s = t' ++ cl.pc.sending s ∧ BoxInv b (turn' s) (fl s) t' ((ans s).map Prod.snd)) :
    ClientInv n { cl with box := Function.update cl.box s b } turn' fl { x with todo := todo, ans := ans } := by
  refine ⟨?_, ?_, h.pc.congr todo ans, ?_⟩
  · refine h.box.at s ?_ ?_
    · intro s' hne
      exact ⟨htodo s' hne, hans s' hne, Function.update_of_ne hne _ _, rfl, hturn s' hne, rfl⟩
    · obtain ⟨t, ht, hb⟩ := h.box s
      obtain ⟨t', ht', hb'⟩ := hs t ht hb
      exact ⟨t', ht', by simpa using hb'⟩
  · have hp := h.pend
    show PendInv n cl.pd _ cl.pc.doall?
    cases hd : cl.pc.doall? with
    | none =>
        rw [hd] at hp
        exact hp
    | some d =>
        rw [hd] at hp
        exact ⟨hp.1, hp.2.congr todo ans⟩
  · intro s' m ret heq
    have hroom := h.room s' m ret heq
    by_cases hne : s' = s
    · subst hne
      simpa [hidx] using hroom
    · simpa [hne] using hroom

/-- A step of server `s` that serves client `i`. -/
theorem Coupled.serve (h : Coupled st f) {s i : ℕ} (hi : i < st.nclients) {t : Table}
    (ht : t.nservers = st.nservers) {srv : Server} {b : Box} {x : Session}
    (hturn : ∀ c, c ≠ i → srv.turn c = (st.server s).turn c) (hwithin : srv.pc.Within st.nclients)
    (hmatch : x.Match)
    (hcl : ClientInv st.nservers { st.client i with box := Function.update (st.client i).box s b }
      (fun s' => (Function.update st.server s srv s').turn i) (st.flushing i) x) :
    Coupled { st with
        table := t
        client := Function.update st.client i
          { st.client i with box := Function.update (st.client i).box s b }
        server := Function.update st.server s srv }
      { f.setSession i x with table := t } := by
  have hpcs : ∀ c, (Function.update st.client i
      { st.client i with box := Function.update (st.client i).box s b } c).pc = (st.client c).pc := by
    intro c
    by_cases hc : c = i
    · rw [hc, Function.update_self]
    · rw [Function.update_of_ne hc]
  have hfl : ∀ c, ({ st with
        table := t
        client := Function.update st.client i
          { st.client i with box := Function.update (st.client i).box s b }
        server := Function.update st.server s srv } : Sys).flushing c = st.flushing c := by
    intro c
    funext s'
    unfold Sys.flushing
    simp only [hpcs c]
  refine ⟨rfl, ?_, ?_, ?_, ?_, ?_⟩
  · intro c
    by_cases hc : c = i
    · subst hc
      simpa [Fifo.setSession] using hmatch
    · simpa [Fifo.setSession, hc] using h.matched c
  · intro c
    rw [hfl]
    by_cases hc : c = i
    · subst hc
      simpa [Fifo.setSession, Sys.nservers, ht] using hcl
    · have hsame : (fun s' => (Function.update st.server s srv s').turn c)
          = fun s' => (st.server s').turn c := by
        funext s'
        by_cases hs : s' = s
        · subst hs
          rw [Function.update_self, hturn c hc]
        · rw [Function.update_of_ne hs]
      have hold := h.client c
      rw [← hsame] at hold
      simpa [Fifo.setSession, hc, Sys.nservers, ht] using hold
  · intro s'
    by_cases hs : s' = s
    · subst hs
      simpa using hwithin
    · simpa [hs] using h.within s'
  · intro c hc
    have hne : c ≠ i := by
      have hc' : st.nclients ≤ c := hc
      omega
    rw [hpcs]
    simpa [Fifo.setSession, hne] using h.unborn c hc
  · intro hne c
    rw [hpcs]
    exact h.stopping hne c

/-- A step of server `s` that changes a box of client `i` and none of the queues. -/
theorem Coupled.serveBox (h : Coupled st f) {s i : ℕ} (hi : i < st.nclients) (srv : Server) (b : Box)
    (hturn : ∀ c, c ≠ i → srv.turn c = (st.server s).turn c) (hwithin : srv.pc.Within st.nclients)
    (hidx : b.inb.localIndex = ((st.client i).box s).inb.localIndex)
    (hbox : ∀ t ans, BoxInv ((st.client i).box s) ((st.server s).turn i) (st.flushing i s) t ans →
      ans.length ≤ OUTB_SIZE → BoxInv b (srv.turn i) (st.flushing i s) t ans) :
    Coupled { st with
        client := Function.update st.client i
          { st.client i with box := Function.update (st.client i).box s b }
        server := Function.update st.server s srv } f := by
  -- the ring has room for all responses
  have hfit : ((f.session i).ans s).length ≤ OUTB_SIZE := by
    have hcount := (h.matched i).count s
    have hwin := (h.client i).pend.window s
    simp only [Session.pending, MAX_PENDING_PER_SERVER] at hwin
    omega
  have hcl := (h.client i).serve (s := s) (b := b)
    (fun s' => (Function.update st.server s srv s').turn i) _ _
    (fun s' hne => by rw [Function.update_of_ne hne]) (fun _ _ => rfl) (fun _ _ => rfl) hidx
    (fun t ht hb => ⟨t, ht, by rw [Function.update_self]; exact hbox t _ hb (by simpa using hfit)⟩)
  have hs := h.serve hi rfl hturn hwithin (h.matched i) hcl
  have hf : ({ f.setSession i (f.session i) with table := st.table } : Fifo) = f := by
    rw [← h.table, Fifo.setSession, Function.update_eq_self]
  rw [hf] at hs
  exact hs

/-- The same when the server writes to no box. -/
theorem Coupled.serveLocal (h : Coupled st f) {s i : ℕ} (hi : i < st.nclients) (srv : Server)
    (hturn : ∀ c, c ≠ i → srv.turn c = (st.server s).turn c) (hwithin : srv.pc.Within st.nclients)
    (hbox : ∀ t ans, BoxInv ((st.client i).box s) ((st.server s).turn i) (st.flushing i s) t ans →
      BoxInv ((st.client i).box s) (srv.turn i) (st.flushing i s) t ans) :
    Coupled (st.setServer s srv) f := by
  have hs := h.serveBox hi srv _ hturn hwithin rfl (fun t ans hb _ => hbox t ans hb)
  rw [Function.update_eq_self, Function.update_eq_self] at hs
  exact hs

/-- A server that serves nobody moves on. -/
theorem Coupled.away (h : Coupled st f) {s : ℕ} (srv : Server)
    (hold : ∀ c, (st.server s).turn c = .away) (hnew : ∀ c, srv.turn c = .away)
    (hwithin : srv.pc.Within st.nclients) : Coupled (st.setServer s srv) f := by
  refine h.congr rfl rfl rfl ?_ ?_ (fun c => rfl) h.stopping
  · intro s' c
    by_cases hs : s' = s
    · subst hs
      simp [Sys.setServer, hold, hnew]
    · simp [Sys.setServer, hs]
  · intro s'
    by_cases hs : s' = s
    · subst hs
      simpa [Sys.setServer] using hwithin
    · simpa [Sys.setServer, hs] using h.within s'

theorem Server.turn_read {srv : Server} {i n : ℕ} {pc : InpbReadPc} (h : srv.pc = .read i n pc) (c : ℕ) :
    srv.turn c = if i = c then .read pc srv.localbuf else .away := by
  simp only [Server.turn, h]

theorem Server.turn_exec {srv : Server} {i n count k j : ℕ} (h : srv.pc = .exec i n count k j) (c : ℕ) :
    srv.turn c = if i = c then .exec count k j srv.localbuf else .away := by
  simp only [Server.turn, h]

theorem Server.turn_write {srv : Server} {i n j m : ℕ} (h : srv.pc = .write i n j m) (c : ℕ) :
    srv.turn c = if i = c then .write j m srv.localbuf else .away := by
  simp only [Server.turn, h]

theorem inpbReadStep_localIndex (b : InputBuffer) (buf : ℕ → ℕ) (pc : InpbReadPc) :
    (inpbReadStep b buf pc).1.localIndex = b.localIndex := by
  cases pc with
  | test count =>
      simp only [inpbReadStep]
      split
      · rfl
      · split <;> rfl
  | copy count => rfl
  | clear count => rfl

theorem Coupled.serverStep_read (h : Coupled st f) {s i n : ℕ} {pc : InpbReadPc} {o : Oracle}
    (hpc : (st.server s).pc = .read i n pc) (hstep : serverStep st s o = .ok (st', evs)) :
    ∃ f', f.replay evs = some f' ∧ Coupled st' f' := by
  have hwithin := h.within s
  rw [hpc] at hwithin
  have hi : i < st.nclients := lt_of_lt_of_le hwithin.1 hwithin.2
  have hself : (st.server s).turn i = .read pc (st.server s).localbuf := by
    rw [Server.turn_read hpc, if_pos rfl]
  have haway : ∀ c, c ≠ i → (st.server s).turn c = .away := by
    intro c hne
    rw [Server.turn_read hpc, if_neg (Ne.symm hne)]
  simp only [serverStep, hpc] at hstep
  split at hstep
  · next b buf pc' heq =>
    cases hstep
    refine ⟨f, rfl, h.serveLocal hi _ ?_ hwithin ?_⟩
    · intro c hne
      rw [haway c hne, Server.turn_read rfl, if_neg (Ne.symm hne)]
    · intro t ans hb
      rw [hself] at hb
      have hr := hb.readStep
      rw [heq] at hr
      rw [Server.turn_read rfl, if_pos rfl]
      exact hr
  · next b buf count heq =>
    cases hstep
    have hidx := inpbReadStep_localIndex ((st.client i).box s).inb (st.server s).localbuf pc
    rw [heq] at hidx
    refine ⟨f, rfl, h.serveBox hi _ _ ?_ ?_ hidx ?_⟩
    · intro c hne
      rw [haway c hne]
      by_cases h0 : count = 0
      · simp [Server.turn, h0]
      · simp [Server.turn, h0, Ne.symm hne]
    · by_cases h0 : count = 0
      · simpa [h0, ServerPc.Within] using hwithin.2
      · simpa [h0, ServerPc.Within] using hwithin
    · intro t ans hb _
      rw [hself] at hb
      have hr := hb.readStep
      rw [heq] at hr
      by_cases h0 : count = 0
      · simpa [Server.turn, h0] using hr
      · simpa [Server.turn, h0] using hr

theorem Coupled.serverStep_write (h : Coupled st f) {s i n j m : ℕ} {o : Oracle}
    (hpc : (st.server s).pc = .write i n j m) (hstep : serverStep st s o = .ok (st', evs)) :
    ∃ f', f.replay evs = some f' ∧ Coupled st' f' := by
  have hwithin := h.within s
  rw [hpc] at hwithin
  have hi : i < st.nclients := lt_of_lt_of_le hwithin.1 hwithin.2
  have hself : (st.server s).turn i = .write j m (st.server s).localbuf := by
    rw [Server.turn_write hpc, if_pos rfl]
  have haway : ∀ c, c ≠ i → (st.server s).turn c = .away := by
    intro c hne
    rw [Server.turn_write hpc, if_neg (Ne.symm hne)]
  simp only [serverStep, hpc] at hstep
  split at hstep
  · next b m' heq =>
    cases hstep
    refine ⟨f, rfl, h.serveBox hi _ _ ?_ hwithin rfl ?_⟩
    · intro c hne
      rw [haway c hne, Server.turn_write rfl, if_neg (Ne.symm hne)]
    · intro t ans hb hfit
      rw [hself] at hb
      have hr := hb.writeStep hfit
      rw [heq] at hr
      rw [Server.turn_write rfl, if_pos rfl]
      exact hr
  · next b heq =>
    cases hstep
    refine ⟨f, rfl, h.serveBox hi _ _ ?_ hwithin.2 rfl ?_⟩
    · intro c hne
      rw [haway c hne]
      rfl
    · intro t ans hb hfit
      rw [hself] at hb
      have hr := hb.writeStep hfit
      rw [heq] at hr
      exact hr

theorem Coupled.serverStep_exec (h : Coupled st f) {s i n count k j : ℕ} {o : Oracle}
    (hpc : (st.server s).pc = .exec i n count k j) (hstep : serverStep st s o = .ok (st', evs)) :
    ∃ f', f.replay evs = some f' ∧ Coupled st' f' := by
  have hwithin := h.within s
  rw [hpc] at hwithin
  have hi : i < st.nclients := lt_of_lt_of_le hwithin.1 hwithin.2
  have hself : (st.server s).turn i = .exec count k j (st.server s).localbuf := by
    rw [Server.turn_exec hpc, if_pos rfl]
  have haway : ∀ c, c ≠ i → (st.server s).turn c = .away := by
    intro c hne
    rw [Server.turn_exec hpc, if_neg (Ne.symm hne)]
  obtain ⟨t, htodo, hb⟩ := (h.client i).box s
  simp only [hself] at hb
  simp only [serverStep, hpc] at hstep
  split at hstep
  · next hk =>
    -- the message at `k` is the oldest one of the queue
    obtain ⟨m, rest, rfl, hdec, hans, hnone⟩ := hb.execStep hk
    simp only [hdec] at hstep
    obtain ⟨⟨tbl, resp, removed⟩, hop, hret⟩ := Outcome.bind_ok.mp hstep
    cases hret
    rw [List.cons_append] at htodo
    obtain ⟨hresp, hn⟩ := serverOp_resp hop
    have hrun : f.replay [.exec s i m.op o resp removed]
        = some { f.setSession i ((f.session i).exec s m (rest ++ (st.client i).pc.sending s) resp) with
            table := tbl } := by
      simp [Fifo.replay, Runs.replay, Fifo.apply, htodo, h.table, hop]
    have hmatch := (h.matched i).exec htodo hresp
    refine ⟨_, hrun, ?_⟩
    have hserve : ∀ srv : Server, (∀ c, c ≠ i → srv.turn c = (st.server s).turn c) →
        srv.pc.Within st.nclients →
        BoxInv ((st.client i).box s) (srv.turn i) (st.flushing i s) rest
          ((((f.session i).exec s m (rest ++ (st.client i).pc.sending s) resp).ans s).map Prod.snd) →
        Coupled ({ st with table := tbl }.setServer s srv)
          { f.setSession i ((f.session i).exec s m (rest ++ (st.client i).pc.sending s) resp) with
            table := tbl } := by
      intro srv hturn hin hbox
      have hcl := (h.client i).serve (s := s) (b := (st.client i).box s)
        (fun s' => (Function.update st.server s srv s').turn i)
        ((f.session i).exec s m (rest ++ (st.client i).pc.sending s) resp).todo
        ((f.session i).exec s m (rest ++ (st.client i).pc.sending s) resp).ans
        (fun s' hne => by rw [Function.update_of_ne hne])
        (fun s' hne => Function.update_of_ne hne _ _)
        (fun s' hne => by cases resp <;> simp [Session.exec, hne]) rfl
        (fun _ _ _ => ⟨rest, Function.update_self .., by rw [Function.update_self]; exact hbox⟩)
      have hs := h.serve hi hn hturn hin hmatch hcl
      rw [Function.update_eq_self, Function.update_eq_self] at hs
      exact hs
    cases resp with
    | some v =>
        refine hserve _ ?_ hwithin ?_
        · intro c hne
          rw [haway c hne, Server.turn_exec rfl, if_neg (Ne.symm hne)]
        · rw [Server.turn_exec rfl, if_pos rfl]
          simpa [Session.exec] using hans v
    | none =>
        refine hserve _ ?_ hwithin ?_
        · intro c hne
          rw [haway c hne, Server.turn_exec rfl, if_neg (Ne.symm hne)]
        · rw [Server.turn_exec rfl, if_pos rfl]
          exact hnone
  · next hk =>
    split at hstep
    · cases hstep
      refine ⟨f, rfl, h.serveLocal hi _ ?_ hwithin ?_⟩
      · intro c hne
        rw [haway c hne, Server.turn_write rfl, if_neg (Ne.symm hne)]
      · intro t ans hb
        rw [hself] at hb
        rw [Server.turn_write rfl, if_pos rfl]
        exact (hb.execDone hk).2
    · cases hstep

theorem Coupled.serverStep (h : Coupled st f) {s : ℕ} {o : Oracle}
    (hstep : serverStep st s o = .ok (st', evs)) :
    ∃ f', f.replay evs = some f' ∧ Coupled st' f' := by
  cases hpc : (st.server s).pc with
  | top =>
      simp only [SmpHashTable.serverStep, hpc] at hstep
      cases hstep
      exact ⟨f, rfl, h.away _ (fun c => by simp [Server.turn, hpc]) (fun _ => rfl) trivial⟩
  | clients =>
      simp only [SmpHashTable.serverStep, hpc] at hstep
      cases hstep
      exact ⟨f, rfl, h.away _ (fun c => by simp [Server.turn, hpc]) (fun _ => rfl) le_rfl⟩
  | poll i n =>
      have haway : ∀ c, (st.server s).turn c = .away := fun c => by simp [Server.turn, hpc]
      have hwithin := h.within s
      rw [hpc] at hwithin
      simp only [SmpHashTable.serverStep, hpc] at hstep
      cases hstep
      refine ⟨f, rfl, ?_⟩
      by_cases hin : i < n
      · rw [if_pos hin]
        refine h.serveLocal (lt_of_lt_of_le hin hwithin) _ ?_ ⟨hin, hwithin⟩ ?_
        · intro c hne
          rw [haway c, Server.turn_read rfl, if_neg (Ne.symm hne)]
        · intro t ans hb
          rw [haway] at hb
          rw [Server.turn_read rfl, if_pos rfl]
          exact hb.startRead _
      · rw [if_neg hin]
        by_cases hq : (st.server s).quitting = true
        · exact h.away _ haway (fun _ => by simp [Server.turn, hq]) (by simp [hq, ServerPc.Within])
        · exact h.away _ haway (fun _ => by simp [Server.turn, hq]) (by simp [hq, ServerPc.Within])
  | read i n pc => exact h.serverStep_read hpc hstep
  | exec i n count k j => exact h.serverStep_exec hpc hstep
  | write i n j m => exact h.serverStep_write hpc hstep
  | returned =>
      simp only [SmpHashTable.serverStep, hpc] at hstep
      cases hstep

/-! ### Whole runs -/

/-- **Every step of the system replays on the queues and keeps the coupling.** -/
theorem Coupled.step (h : Coupled st f) {a : Act} (hok : a.Ok st) (hstep : st.step a = .ok (st', evs)) :
    ∃ f', f.replay evs = some f' ∧ Coupled st' f' := by
  cases a with
  | create values servers =>
      obtain ⟨st₁, h₁, heq⟩ := Outcome.map_ok.mp hstep
      cases heq
      exact ⟨f, rfl, h.createClient hok h₁⟩
  | start stack =>
      obtain ⟨st₁, h₁, heq⟩ := Outcome.map_ok.mp hstep
      cases heq
      exact ⟨f, rfl, h.startServers h₁⟩
  | stop =>
      simp only [Sys.step] at hstep
      split at hstep
      · next hidle =>
        cases hstep
        have hok : ∀ c, (st.client c).pc = .idle := by
          intro c
          by_cases hc : c < st.nclients
          · exact hok c hc
          · exact (h.unborn c (Nat.le_of_not_lt hc)).1
        refine ⟨f, rfl, h.congr rfl rfl rfl (fun _ _ => rfl) h.within ?_ (fun _ => hok)⟩
        intro c
        have hno : ∀ i k pc, st.stopper ≠ .flush i k pc := by simp [hidle]
        rw [Sys.flushing_none hno (hok c)]
        exact Sys.flushing_none (by simp) (hok c)
      · cases hstep
  | stopper =>
      obtain ⟨st₁, h₁, heq⟩ := Outcome.map_ok.mp hstep
      cases heq
      exact ⟨f, rfl, h.stopperStep h₁⟩
  | call c k =>
      simp only [Sys.step] at hstep
      split at hstep
      · next hidle =>
        split at hstep
        · next hc =>
          obtain ⟨⟨cl, evs'⟩, h₁, heq⟩ := Outcome.map_ok.mp hstep
          cases heq
          exact h.startCall hok.1 hc hidle hok.2 h₁
        · cases hstep
      · cases hstep
  | client c =>
      obtain ⟨⟨cl, evs'⟩, h₁, heq⟩ := Outcome.map_ok.mp hstep
      cases heq
      exact h.clientStep h₁
  | server s o =>
      simp only [Sys.step] at hstep
      split at hstep
      · exact h.serverStep hstep
      · cases hstep

end

/-- **Refinement**: the log of every run replays on the queues. -/
theorem reach_coupled {t : Table} {st : Sys} {log : List Event} (h : Sys.Reach (Sys.init t) st log) :
    ∃ f, (Fifo.init t).replay log = some f ∧ Coupled st f := by
  refine Runs.Reach.simulate (R := Coupled) (coupled_init t) ?_ h
  intro st st' log evs a f hc hok hstep
  exact hc.step hok hstep

/-! ### What a step leaves alone -/

structure ServerFrame (s : ℕ) (st st' : Sys) : Prop where
  nservers : st'.nservers = st.nservers
  nclients : st'.nclients = st.nclients
  quitting : st'.quitting = st.quitting
  stopper : st'.stopper = st.stopper
  server : ∀ s', s' ≠ s → st'.server s' = st.server s'
  pc : ∀ c, (st'.client c).pc = (st.client c).pc
  box : ∀ c s', s' ≠ s → (st'.client c).box s' = (st.client c).box s'
  localIndex : ∀ c, ((st'.client c).box s).inb.localIndex = ((st.client c).box s).inb.localIndex

section

variable {st st' : Sys} {s : ℕ} {o : Oracle} {evs : List Event}

theorem ServerFrame.setServer (srv : Server) : ServerFrame s st (st.setServer s srv) :=
  ⟨rfl, rfl, rfl, rfl, fun _ hne => Function.update_of_ne hne _ _, fun _ => rfl, fun _ _ _ => rfl,
    fun _ => rfl⟩

/-- The same when the server writes to the box of client `i`. -/
theorem ServerFrame.setBox {i : ℕ} (b : Box)
    (hidx : b.inb.localIndex = ((st.client i).box s).inb.localIndex) (srv : Server) :
    ServerFrame s st ((st.setClient i
      { st.client i with box := Function.update (st.client i).box s b }).setServer s srv) := by
  refine ⟨rfl, rfl, rfl, rfl, fun _ hne => Function.update_of_ne hne _ _, ?_, ?_, ?_⟩
  · intro c
    by_cases hc : c = i
    · subst hc
      simp [Sys.setServer, Sys.setClient]
    · simp [Sys.setServer, Sys.setClient, hc]
  · intro c s' hne
    by_cases hc : c = i
    · subst hc
      simp [Sys.setServer, Sys.setClient, hne]
    · simp [Sys.setServer, Sys.setClient, hc]
  · intro c
    by_cases hc : c = i
    · subst hc
      simpa [Sys.setServer, Sys.setClient] using hidx
    · simp [Sys.setServer, Sys.setClient, hc]

theorem serverStep_frame (hstep : serverStep st s o = .ok (st', evs)) :
    ServerFrame s st st' ∧ ∀ c s', issued c s' evs = [] := by
  cases hpc : (st.server s).pc with
  | top =>
      simp only [serverStep, hpc] at hstep
      cases hstep
      exact ⟨.setServer _, fun _ _ => rfl⟩
  | clients =>
      simp only [serverStep, hpc] at hstep
      cases hstep
      exact ⟨.setServer _, fun _ _ => rfl⟩
  | poll i n =>
      simp only [serverStep, hpc] at hstep
      cases hstep
      exact ⟨.setServer _, fun _ _ => rfl⟩
  | read i n pc =>
      simp only [serverStep, hpc] at hstep
      split at hstep
      · cases hstep
        exact ⟨.setServer _, fun _ _ => rfl⟩
      · next b buf count heq =>
        cases hstep
        have hidx := inpbReadStep_localIndex ((st.client i).box s).inb (st.server s).localbuf pc
        rw [heq] at hidx
        exact ⟨.setBox { (st.client i).box s with inb := b } hidx _, fun _ _ => rfl⟩
  | exec i n count k j =>
      simp only [serverStep, hpc] at hstep
      split at hstep
      · split at hstep
        · cases hstep
        · obtain ⟨⟨t, resp, removed⟩, hop, hret⟩ := Outcome.bind_ok.mp hstep
          cases hret
          refine ⟨?_, fun _ _ => rfl⟩
          exact ⟨(serverOp_resp hop).2, rfl, rfl, rfl, fun _ hne => Function.update_of_ne hne _ _,
            fun _ => rfl, fun _ _ _ => rfl, fun _ => rfl⟩
      · split at hstep
        · cases hstep
          exact ⟨.setServer _, fun _ _ => rfl⟩
        · cases hstep
  | write i n j m =>
      simp only [serverStep, hpc] at hstep
      split at hstep
      · next b m' heq =>
        cases hstep
        exact ⟨.setBox { (st.client i).box s with out := b } rfl _, fun _ _ => rfl⟩
      · next b heq =>
        cases hstep
        exact ⟨.setBox { (st.client i).box s with out := b } rfl _, fun _ _ => rfl⟩
  | returned =>
      simp only [serverStep, hpc] at hstep
      cases hstep

theorem stopperStep_frame (h : stopperStep st = .ok st') :
    st'.nclients = st.nclients ∧ st'.nservers = st.nservers ∧ st'.server = st.server := by
  unfold stopperStep at h
  cases hpc : st.stopper with
  | idle =>
      rw [hpc] at h
      cases h
  | loop i k =>
      simp only [hpc] at h
      cases h
      exact ⟨rfl, rfl, rfl⟩
  | flush i k pc =>
      simp only [hpc] at h
      split at h
      · cases h
        exact ⟨rfl, rfl, rfl⟩
      · cases h
        exact ⟨rfl, rfl, rfl⟩
  | quit =>
      simp only [hpc] at h
      cases h
      exact ⟨rfl, rfl, rfl⟩
  | join i =>
      simp only [hpc] at h
      split at h
      · split at h
        · cases h
          exact ⟨rfl, rfl, rfl⟩
        · cases h
      · cases h
        exact ⟨rfl, rfl, rfl⟩

end

end SmpHashTable
