import SmpHashTable.Responses

/-!
# The responses to every connection

A connection has one slot of one client thread for its whole life, so one thread reads its lookups and
writes the responses.  What the thread has written to it, what waits in the list of the slot and what
waits in the result loop together are the responses to its lookups so far.
-/

namespace SmpHashTable.HashServer

/-! ### The slot of a connection -/

namespace OwnStep

variable {st : Server} {a : ServerAct} {own : Holder → Option ℤ} {fds : ℤ → Option ℕ} {n conn : ℕ}
  {s : ℤ}

theorem nconn_le (h : OwnStep st a own fds n) : st.nconn ≤ n := by
  cases h with
  | accept => exact Nat.le_succ _
  | _ => exact Nat.le_refl _

/-- A connection is new or was there before. -/
theorem fds_cases (h : OwnStep st a own fds n) (hs : fds s = some conn) :
    st.fds s = some conn ∨ (conn = st.nconn ∧ own .acceptor = some s ∧ n = st.nconn + 1) := by
  cases h with
  | @accept fd =>
      by_cases hfd : s = fd
      · rw [hfd, Function.update_self] at hs
        rw [hfd, Function.update_self]
        exact .inr ⟨(Option.some.inj hs).symm, rfl, rfl⟩
      · exact .inl (by rwa [Function.update_of_ne hfd] at hs)
  | @fclose c i s' =>
      by_cases hfd : s = s'
      · rw [hfd, Function.update_self] at hs
        cases hs
      · exact .inl (by rwa [Function.update_of_ne hfd] at hs)
  | _ => exact .inl hs

/-- What the accepting thread holds is new or it held it before. -/
theorem held_cases (h : OwnStep st a own fds n) (hs : own .acceptor = some s) :
    st.own .acceptor = some s ∨ fds s = some st.nconn := by
  cases h with
  | quiet => exact .inl hs
  | accept =>
      rw [Function.update_self] at hs
      cases hs
      exact .inr (Function.update_self _ _ _)
  | drop =>
      rw [Function.update_self] at hs
      cases hs
  | store =>
      rw [Function.update_of_ne Holder.noConfusion, Function.update_self] at hs
      cases hs
  | fclose => exact .inl (by rwa [Function.update_of_ne Holder.noConfusion] at hs)

/-- What `open_socket` stores is the descriptor that the accepting thread held. -/
theorem stored {c i : ℕ} (how : Ownership.Owning st.own st.fds) (h : OwnStep st a own fds n)
    (hpc : st.acceptor = .counted s c i) (hs : own (.slot c i) = some s) (hfd : fds s = some conn) :
    st.own .acceptor = some s ∧ st.fds s = some conn := by
  refine ⟨?_, ?_⟩
  · show st.acceptor.sock = _
    rw [hpc]
    rfl
  · rcases h.fds_cases hfd with hfd | ⟨-, hheld, -⟩
    · exact hfd
    · exact Holder.noConfusion ((h.owning how).apart hheld hs)

end OwnStep

theorem ClientStep.asked {b c c' : ℕ} {cl cl' : Client} {fds fds' : ℤ → Option ℕ} {a : ClientAct}
    {evs : List ServerEvent} (h : ClientStep b cl fds c a cl' fds' evs) {e : Entry}
    (he : .asked c' e ∈ evs) :
    c' = c ∧ cl.pc.InSlot ∧ cl.pc.shut = false ∧ e.sid = cl.i ∧ e.socket = cl.cd.sockets cl.i ∧
      e.origin = fds (cl.cd.fin cl.i) := by
  cases h with
  | lookup hpc =>
      cases List.mem_singleton.mp he
      exact ⟨rfl, by rw [hpc]; trivial, by rw [hpc]; rfl, rfl, rfl, rfl⟩
  | insertDone hpc hret hent =>
      cases List.mem_singleton.mp he
      rw [hent]
      exact ⟨rfl, by rw [hpc]; trivial, by rw [hpc]; rfl, rfl, rfl, rfl⟩
  | _ => simp [releases] at he

/-- A query is read from the connection in its slot, and the step leaves the slots alone. -/
theorem Owned.asked {st st' : Server} {a : ServerAct} {evs : List ServerEvent} (h : Owned st)
    (hs : st.step a = .ok (st', evs)) {c : ℕ} {e : Entry} (he : .asked c e ∈ evs) :
    st.own (.slot c e.sid) = some e.socket ∧ st.fds e.socket = e.origin ∧ st'.own = st.own ∧
      st'.fds = st.fds ∧ st'.nconn = st.nconn := by
  rcases Server.step_cases hs with ⟨b, rfl, hb, rfl⟩ | ⟨c', b, cl, fds, rfl, hc, hb, rfl⟩
  · cases he
  · have hstep := clientgo_step hb
    obtain ⟨rfl, hin, hshut, hsid, hsock, horigin⟩ := hstep.asked he
    have hslot := h.slotFd_inSlot hin hshut
    rcases hstep.slots (h.inSlot c) with hq | ⟨_, _, _, _, rfl⟩ | ⟨_, _, _, _, rfl⟩
    · rw [← hsock, ← hsid] at hslot
      rw [← hsid, h.fin c e.sid e.socket hslot] at horigin
      exact ⟨hslot, horigin.symm, Server.own_setClient_self st fds hq.slotFd, hq.files, rfl⟩
    · cases List.mem_singleton.mp he
    · cases List.mem_singleton.mp he

/-- `home` gives each connection that was ever in a slot its thread and its slot. -/
structure Homed (home : ℕ → ℕ × ℕ) (st : Server) (log : List ServerEvent) : Prop where
  asked : ∀ c e conn, .asked c e ∈ log → e.origin = some conn → home conn = (c, e.sid)
  number : ∀ c e conn s, .asked c e ∈ log → e.origin = some conn → st.fds s = some conn →
    s = e.socket
  past : ∀ c e conn, .asked c e ∈ log → e.origin = some conn → conn < st.nconn
  slot : ∀ c i s conn, st.own (.slot c i) = some s → st.fds s = some conn → home conn = (c, i)
  /-- Nothing has been read from the connection that the accepting thread holds. -/
  fresh : ∀ s conn, st.own .acceptor = some s → st.fds s = some conn →
    ∀ c e, .asked c e ∈ log → e.origin ≠ some conn
  inj : ∀ s s' conn, st.fds s = some conn → st.fds s' = some conn → s = s'
  bound : ∀ s conn, st.fds s = some conn → conn < st.nconn

theorem homed_start (b n : ℕ) (home : ℕ → ℕ × ℕ) : Homed home (.start b n) [] where
  asked := fun _ _ _ h => absurd h List.not_mem_nil
  number := fun _ _ _ _ h => absurd h List.not_mem_nil
  past := fun _ _ _ h => absurd h List.not_mem_nil
  slot := fun _ _ _ _ h => absurd h.symm (Option.some_ne_none _)
  fresh := fun _ _ h => absurd h.symm (Option.some_ne_none _)
  inj := fun _ _ _ h => absurd h.symm (Option.some_ne_none _)
  bound := fun _ _ h => absurd h.symm (Option.some_ne_none _)

/-- A step, with `home'` right for the slots after it and the queries before it. -/
theorem Homed.step_of {home home' : ℕ → ℕ × ℕ} {st st' : Server} {log evs : List ServerEvent}
    {a : ServerAct} (h : Homed home st log) (hown : Owned st) (hs : st.step a = .ok (st', evs))
    (hostep : OwnStep st a st'.own st'.fds st'.nconn)
    (hasked : ∀ c e conn, .asked c e ∈ log → e.origin = some conn → home' conn = (c, e.sid))
    (hslot : ∀ c i s conn, st'.own (.slot c i) = some s → st'.fds s = some conn →
      home' conn = (c, i)) : Homed home' st' (log ++ evs) where
  asked := fun c e conn he horigin => by
    rcases List.mem_append.mp he with he | he
    · exact hasked c e conn he horigin
    · obtain ⟨ho, hf, ho', hf', -⟩ := hown.asked hs he
      exact hslot c e.sid e.socket conn (ho' ▸ ho) (by rw [hf', hf, horigin])
  number := fun c e conn s he horigin hfd => by
    rcases List.mem_append.mp he with he | he
    · rcases hostep.fds_cases hfd with hfd | ⟨rfl, -, -⟩
      · exact h.number c e conn s he horigin hfd
      · exact absurd (h.past c e _ he horigin) (lt_irrefl _)
    · obtain ⟨ho, hf, ho', hf', -⟩ := hown.asked hs he
      exact h.inj s e.socket conn (hf' ▸ hfd) (hf.trans horigin)
  past := fun c e conn he horigin => by
    refine lt_of_lt_of_le ?_ hostep.nconn_le
    rcases List.mem_append.mp he with he | he
    · exact h.past c e conn he horigin
    · exact h.bound e.socket conn ((hown.asked hs he).2.1.trans horigin)
  slot := hslot
  fresh := fun s conn hheld hfd c e he horigin => by
    rcases List.mem_append.mp he with he | he
    · have hpast := h.past c e conn he horigin
      rcases hostep.held_cases hheld with hheld | hnew
      · rcases hostep.fds_cases hfd with hfd | ⟨rfl, -, -⟩
        · exact h.fresh s conn hheld hfd c e he horigin
        · exact lt_irrefl _ hpast
      · rw [hfd] at hnew
        cases hnew
        exact lt_irrefl _ hpast
    · obtain ⟨ho, hf, ho', hf', -⟩ := hown.asked hs he
      have hsock := h.inj s e.socket conn (hf' ▸ hfd) (hf.trans horigin)
      rw [ho', hsock] at hheld
      exact Holder.noConfusion (hown.owning.apart ho hheld)
  inj := fun s s' conn hfd hfd' => by
    rcases hostep.fds_cases hfd with hfd | ⟨rfl, hheld, -⟩
    · rcases hostep.fds_cases hfd' with hfd' | ⟨rfl, -, -⟩
      · exact h.inj s s' conn hfd hfd'
      · exact absurd (h.bound s _ hfd) (lt_irrefl _)
    · rcases hostep.fds_cases hfd' with hfd' | ⟨-, hheld', -⟩
      · exact absurd (h.bound s' _ hfd') (lt_irrefl _)
      · exact Option.some.inj (hheld.symm.trans hheld')
  bound := fun s conn hfd => by
    rcases hostep.fds_cases hfd with hfd | ⟨rfl, -, hn⟩
    · exact lt_of_lt_of_le (h.bound s conn hfd) hostep.nconn_le
    · omega

theorem Homed.step {home : ℕ → ℕ × ℕ} {st st' : Server} {log evs : List ServerEvent} {a : ServerAct}
    (h : Homed home st log) (hown : Owned st) (hs : st.step a = .ok (st', evs))
    (hostep : OwnStep st a st'.own st'.fds st'.nconn) : ∃ home', Homed home' st' (log ++ evs) := by
  have hold : ∀ {c i s conn}, st.own (.slot c i) = some s → st'.own (.slot c i) = some s →
      st'.fds s = some conn → home conn = (c, i) := fun ho ho' hfd =>
    h.slot _ _ _ _ ho (hostep.kept hown.owning ho ho' ▸ hfd)
  by_cases hstore : ∃ s c i, a = .acceptor .go ∧ st.acceptor = .counted s c i
  · obtain ⟨s₀, c₀, i₀, -, hpc⟩ := hstore
    have hheld : st.own .acceptor = some s₀ := by
      show st.acceptor.sock = _
      rw [hpc]
      rfl
    obtain ⟨conn₀, hconn₀⟩ := Option.ne_none_iff_exists'.mp (hown.owning.isOpen hheld)
    refine ⟨Function.update home conn₀ (c₀, i₀), h.step_of hown hs hostep ?_ ?_⟩
    · intro c e conn he horigin
      have hne : conn ≠ conn₀ := fun heq => h.fresh s₀ conn₀ hheld hconn₀ c e he (heq ▸ horigin)
      rw [Function.update_of_ne hne]
      exact h.asked c e conn he horigin
    · intro c i s conn ho' hfd
      rcases hostep.back ho' with ho | ⟨-, hpc'⟩
      · have hne : conn ≠ conn₀ := by
          intro heq
          have hfd' : st.fds s = some conn := hostep.kept hown.owning ho ho' ▸ hfd
          have hs₀ := h.inj s s₀ conn hfd' (heq ▸ hconn₀)
          exact Holder.noConfusion (hown.owning.apart (hs₀ ▸ ho) hheld)
        rw [Function.update_of_ne hne]
        exact hold ho ho' hfd
      · rw [hpc] at hpc'
        cases hpc'
        have hfd' := (hostep.stored hown.owning hpc ho' hfd).2
        rw [hconn₀] at hfd'
        cases hfd'
        exact Function.update_self _ _ _
  · refine ⟨home, h.step_of hown hs hostep h.asked fun c i s conn ho' hfd => ?_⟩
    rcases hostep.back ho' with ho | ⟨ha, hpc⟩
    · exact hold ho ho' hfd
    · exact absurd ⟨s, c, i, ha, hpc⟩ hstore

/-! ### The streams -/

/-- After a `writev` to a connection has failed, none writes bytes to it. -/
def ServerAct.NoResume (st : Server) (log : List ServerEvent) : ServerAct → Prop
  | .client c (.writev (.wrote n)) =>
      match (st.client c).pc with
      | .write _ sock _ => 0 < n → .failed (st.fds sock) ∉ log
      | _ => True
  | _ => True

instance (st : Server) (log : List ServerEvent) (a : ServerAct) : Decidable (a.NoResume st log) := by
  unfold ServerAct.NoResume
  split
  · split <;> infer_instance
  · infer_instance

/-- The size of a value is a `uint32_t`. -/
def ServerAct.Sized : ServerAct → Prop
  | .client _ (.answer values) => ∀ v ∈ values, Fits32 v
  | _ => True

instance (a : ServerAct) : Decidable a.Sized := by
  unfold ServerAct.Sized
  split <;> infer_instance

theorem written_eq_nil {conn : ℕ} {evs : List ServerEvent}
    (h : ∀ ps, .wrote (some conn) ps ∈ evs → bytes ps = []) : written conn evs = [] := by
  refine List.flatMap_eq_nil_iff.mpr fun ev hev => ?_
  cases ev with
  | wrote c ps =>
      by_cases hc : c = some conn
      · subst hc
        exact (if_pos rfl).trans (h ps hev)
      · exact if_neg hc
  | _ => rfl

theorem answers_eq_nil {conn : ℕ} {evs : List ServerEvent}
    (h : ∀ c e v, .answered c e v ∈ evs → ¬ mine conn e = true) : answers conn evs = [] := by
  refine List.filter_eq_nil_iff.mpr fun p hp => ?_
  obtain ⟨ev, hev, heq⟩ := List.mem_filterMap.mp hp
  cases ev with
  | answered c e v =>
      cases heq
      exact h c e v hev
  | _ => cases heq

theorem ClientStep.answered {b c c' : ℕ} {cl cl' : Client} {fds fds' : ℤ → Option ℕ} {a : ClientAct}
    {evs : List ServerEvent} (h : ClientStep b cl fds c a cl' fds' evs) {e : Entry}
    {v : Option HashValue} (he : .answered c' e v ∈ evs) : c' = c ∧ e ∈ cl.unanswered := by
  cases h with
  | answer hpc =>
      obtain ⟨p, hp, heq⟩ := List.mem_map.mp he
      cases heq
      rw [Client.unanswered, hpc]
      exact ⟨rfl, (List.of_mem_zip hp).1⟩
  | _ => simp [releases] at he

/-- The responses to the lookups of each connection are written, wait to be written or wait to be
handled. -/
structure Streams (st : Server) (log : List ServerEvent) : Prop where
  asked : ∀ c, ∀ e ∈ (st.client c).unanswered, .asked c e ∈ log
  due : ∀ c i s conn, st.own (.slot c i) = some s → st.fds s = some conn →
    .failed (some conn) ∉ log →
    written conn log ++ (st.client c).due conn i = responses (answers conn log)
  pre : ∀ conn, written conn log <+: responses (answers conn log)

section

variable {home : ℕ → ℕ × ℕ} {st st' : Server} {log evs : List ServerEvent} {a : ServerAct}
  {c i conn : ℕ} {s : ℤ}

/-- What a thread does with the slot of a connection is for that connection. -/
theorem Streams.occupied (h : Streams st log) (hown : Owned st) (haddr : Addressed st)
    (hhome : Homed home st log) (hs : st.own (.slot c i) = some s) (hfd : st.fds s = some conn) :
    Occupied (st.client c) st.fds conn i where
  writing := fun k sock iovs hpc => by
    have hsock := haddr.writing c k sock iovs hpc
    constructor
    · intro hfd'
      have heq := hhome.inj sock s conn hfd' hfd
      have hk := hown.owning.apart (heq ▸ hsock) hs
      exact (Holder.slot.inj hk).2
    · rintro rfl
      rw [hs] at hsock
      cases hsock
      exact hfd
  keeps := fun e v todo hpc hop => by
    have he : e ∈ (st.client c).unanswered := by
      rw [Client.unanswered, hpc]
      exact List.mem_cons_self
    have hask := h.asked c e he
    obtain ⟨hsock, -, -⟩ := Client.slotFd_eq_some.mp hs
    constructor
    · intro horigin
      have hsid := (hhome.asked c e conn hask horigin).symm.trans (hhome.slot c i s conn hs hfd)
      have hi : e.sid = i := (Prod.mk.inj hsid).2
      exact ⟨hi, by rw [hi, hsock, hhome.number c e conn s hask horigin hfd]⟩
    · rintro ⟨rfl, hkeep⟩
      rw [hsock] at hkeep
      subst hkeep
      rw [← haddr.entries c e he hop hs, hfd]

/-- The other threads have nothing to do with the connection. -/
theorem Streams.mute (h : Streams st log) (hown : Owned st) (haddr : Addressed st)
    (hhome : Homed home st log) (hs : st.own (.slot c i) = some s) (hfd : st.fds s = some conn)
    {b c' : ℕ} {cl' : Client} {fds' : ℤ → Option ℕ} {a : ClientAct} (hne : c ≠ c')
    (hstep : ClientStep b (st.client c') st.fds c' a cl' fds' evs) : Mute conn evs := by
  constructor
  · refine answers_eq_nil fun c'' e v he hmine => ?_
    obtain ⟨rfl, hun⟩ := hstep.answered he
    rw [mine, decide_eq_true_iff] at hmine
    have hc := (hhome.asked c'' e conn (h.asked c'' e hun) hmine.2).symm.trans
      (hhome.slot c i s conn hs hfd)
    exact hne (Prod.mk.inj hc).1.symm
  · refine written_eq_nil fun ps hps => ?_
    obtain ⟨k, sock, iovs, n, done, hpc, -, -, hconn, -⟩ := hstep.wrote hps
    have hsock := haddr.writing c' k sock iovs hpc
    have heq := hhome.inj sock s conn hconn.symm hfd
    have hk := hown.owning.apart (heq ▸ hsock) hs
    exact absurd (Holder.slot.inj hk).1.symm hne

/-- What a step adds to the responses of a connection it adds to what is written or due. -/
theorem Streams.due_step (h : Streams st log) (hown : Owned st) (haddr : Addressed st)
    (hhome : Homed home st log) (ht : ∀ c, Tidy (st.client c)) (hstep : st.step a = .ok (st', evs))
    (hs : st.own (.slot c i) = some s) (hfd : st.fds s = some conn)
    (hfail : .failed (some conn) ∉ evs) :
    (st.client c).due conn i ++ responses (answers conn evs)
      = written conn evs ++ (st'.client c).due conn i := by
  rcases Server.step_cases hstep with ⟨b, rfl, hb, rfl⟩ | ⟨c', b, cl, fds, rfl, -, hb, rfl⟩
  · obtain ⟨cd, hcl⟩ := Server.tcpserver_client hb c
    rw [hcl]
    exact Client.due_quiet ⟨rfl, rfl⟩ rfl rfl
  · by_cases hc : c = c'
    · subst hc
      rw [Server.setClient_self]
      exact (clientgo_step hb).due (ht c) (h.occupied hown haddr hhome hs hfd) hfail
    · rw [Server.setClient_of_ne hc]
      exact Client.due_quiet (h.mute hown haddr hhome hs hfd hc (clientgo_step hb)) rfl rfl

/-- Nothing has happened on a connection that no lookup was read from. -/
theorem Streams.untouched (h : Streams st log)
    (hanswered : ∀ c e v, .answered c e v ∈ log → .asked c e ∈ log)
    (hconn : ∀ c e, .asked c e ∈ log → e.origin ≠ some conn) :
    written conn log = [] ∧ answers conn log = [] ∧
      ∀ c, (st.client c).todo.filter (fun p => mine conn p.1) = [] := by
  have hanswers : answers conn log = [] := by
    refine answers_eq_nil fun c e v he hmine => ?_
    rw [mine, decide_eq_true_iff] at hmine
    exact hconn c e (hanswered c e v he) hmine.2
  refine ⟨?_, hanswers, fun c => List.filter_eq_nil_iff.mpr fun p hp hmine => ?_⟩
  · have hpre := h.pre conn
    rw [hanswers] at hpre
    exact List.prefix_nil.mp hpre
  · have he : p.1 ∈ (st.client c).unanswered := by
      unfold Client.todo at hp
      unfold Client.unanswered
      cases hpc : (st.client c).pc <;> simp_all
      exact ⟨_, hp⟩
    rw [mine, decide_eq_true_iff] at hmine
    exact hconn c p.1 (h.asked c p.1 he) hmine.2

theorem Streams.step (h : Streams st log) (hown : Owned st) (haddr : Addressed st)
    (hhome : Homed home st log) (ht : ∀ c, Tidy (st.client c))
    (hanswered : ∀ c e v, .answered c e v ∈ log → .asked c e ∈ log)
    (hresume : a.NoResume st log) (hstep : st.step a = .ok (st', evs))
    (hostep : OwnStep st a st'.own st'.fds st'.nconn) : Streams st' (log ++ evs) where
  asked := fun c e he => by
    rcases Server.step_thread hstep c with ⟨cd, hcl⟩ | ⟨b, hcl⟩
    · rw [hcl] at he
      exact List.mem_append_left _ (h.asked c e he)
    · rcases hcl.unanswered he with he | ⟨he, -⟩
      · exact List.mem_append_left _ (h.asked c e he)
      · exact List.mem_append_right _ he
  due := fun c i s conn hs hfd hfail => by
    obtain ⟨hlog, hevs⟩ := not_or.mp fun hor => hfail (List.mem_append.mpr hor)
    rw [written_append, answers_append, responses_append]
    rcases hostep.back hs with hs' | ⟨rfl, hpc⟩
    · have hfd' : st.fds s = some conn := hostep.kept hown.owning hs' hs ▸ hfd
      rw [← h.due c i s conn hs' hfd' hlog, List.append_assoc, List.append_assoc,
        h.due_step hown haddr hhome ht hstep hs' hfd' hevs]
    · -- the connection is new in its slot
      obtain ⟨hheld, hfd'⟩ := hostep.stored hown.owning hpc hs hfd
      obtain ⟨hw, ha, htodo⟩ := h.untouched hanswered (hhome.fresh s conn hheld hfd')
      have hempty : st.own (.slot c i) = none := if_pos (.inl (hown.filling s c i (.inr hpc)).1)
      have hout : (st.client c).outbox i = [] := by
        refine List.eq_nil_iff_forall_not_mem.mpr fun iov hiov => ?_
        obtain ⟨s', hs', -⟩ := haddr.outbox c i iov hiov
        rw [hempty] at hs'
        cases hs'
      rcases Server.step_cases hstep with ⟨b, -, hb, rfl⟩ | ⟨c', b, cl, fds, heq, -⟩
      · obtain ⟨cd, hcl⟩ := Server.tcpserver_client hb c
        have hdue : (st'.client c).due conn i = [] := by
          rw [hcl]
          show bytes ((st.client c).outbox i) ++ responses ((st.client c).todo.filter _) = []
          rw [hout, htodo c]
          rfl
        rw [hw, ha, hdue]
        rfl
      · cases heq
  pre := fun conn => by
    rw [written_append, answers_append, responses_append]
    by_cases hw : ∀ ps, .wrote (some conn) ps ∈ evs → bytes ps = []
    · rw [written_eq_nil hw, List.append_nil]
      exact (h.pre conn).trans (List.prefix_append _ _)
    · obtain ⟨ps, hps⟩ := not_forall.mp hw
      obtain ⟨hps, hne⟩ := Classical.not_imp.mp hps
      rcases Server.step_cases hstep with ⟨b, rfl, hb, rfl⟩ | ⟨c, b, cl, fds, rfl, -, hb, rfl⟩
      · cases hps
      · obtain ⟨k, sock, iovs, n, done, hpc, rfl, rfl, hconn, rfl⟩ := (clientgo_step hb).wrote hps
        have hsock := haddr.writing c k sock iovs hpc
        have hn : 0 < n := by
          refine Nat.pos_of_ne_zero fun hn => hne ?_
          rw [hn, pieces_zero]
          rfl
        have hlog : .failed (some conn) ∉ log := by
          simp only [ServerAct.NoResume, hpc] at hresume
          exact hconn ▸ hresume hn
        have hevs : .failed (some conn) ∉ .wrote (st.fds sock) (pieces n iovs) :: releases c done := by
          simp [releases]
        have hdue := h.due_step hown haddr hhome ht hstep hsock hconn.symm hevs
        rw [← h.due c k sock conn hsock hconn.symm hlog, List.append_assoc, hdue, ← List.append_assoc]
        exact List.prefix_append _ _

end

/-! ### Every run -/

/-- The runs in which no descriptor is reused too early and no connection is written to after a failed
`writev`. -/
theorem streams {ok : Server → List ServerEvent → ServerAct → Prop} {b n : ℕ} {st : Server}
    {log : List ServerEvent}
    (hok : ∀ st log a, ok st log a → a.Ok st ∧ a.NoReuse st ∧ a.NoResume st log)
    (h : Runs.Reach Server.step ok (.start b n) st log) :
    Streams st log ∧ ∃ home, Homed home st log := by
  induction h with
  | start =>
      refine ⟨⟨fun c e he => absurd he List.not_mem_nil, fun c i s conn hs => ?_,
        fun _ => List.nil_prefix⟩, fun _ => (0, 0), homed_start b n _⟩
      exact absurd hs.symm (Option.some_ne_none _)
  | @step st st' log evs a hreach ha hs ih =>
      obtain ⟨hst, home, hhome⟩ := ih
      obtain ⟨hown, haddr⟩ := owned_addressed (fun _ _ _ h => (hok _ _ _ h).2.1) hreach
      obtain ⟨hostep, -⟩ := hown.step (hok _ _ _ ha).2.1 hs
      have hanswered : ∀ c e v, .answered c e v ∈ log → .asked c e ∈ log := by
        intro c e v he
        have hgathered := gathered (fun _ _ _ h => (hok _ _ _ h).1) hreach c
        refine asks_threadLog_mem.mp (hgathered ▸ List.mem_append_left _ ?_)
        exact List.mem_map.mpr ⟨(e, v), replies_threadLog_mem he, rfl⟩
      exact ⟨hst.step hown haddr hhome (tidy hreach) hanswered (hok _ _ _ ha).2.2 hs hostep,
        hhome.step hown hs hostep⟩

theorem ClientStep.sized {b c c' : ℕ} {cl cl' : Client} {fds fds' : ℤ → Option ℕ} {a : ClientAct}
    {evs : List ServerEvent} (h : ClientStep b cl fds c a cl' fds' evs)
    (ha : (ServerAct.client c a).Sized) {e : Entry} {v : Option HashValue}
    (he : .answered c' e v ∈ evs) : Fits32 v := by
  cases h with
  | answer hpc =>
      obtain ⟨p, hp, heq⟩ := List.mem_map.mp he
      cases heq
      exact ha _ (List.of_mem_zip hp).2
  | _ => simp [releases] at he

theorem answered_sized {ok : Server → List ServerEvent → ServerAct → Prop} {b n : ℕ} {st : Server}
    {log : List ServerEvent} (hok : ∀ st log a, ok st log a → a.Sized)
    (h : Runs.Reach Server.step ok (.start b n) st log) {c : ℕ} {e : Entry} {v : Option HashValue}
    (he : .answered c e v ∈ log) : Fits32 v := by
  induction h with
  | start => cases he
  | step hreach ha hs ih =>
      rcases List.mem_append.mp he with he | he
      · exact ih he
      · rcases Server.step_cases hs with ⟨b, rfl, hb, rfl⟩ | ⟨c', b, cl, fds, rfl, -, hb, rfl⟩
        · cases he
        · exact (clientgo_step hb).sized (hok _ _ _ ha) he

/-- The stream of a connection is right: its lookups are answered in the order they were read, what is
written to it is a beginning of their responses, and the client library reads the results back. -/
def InOrder (conn : ℕ) (log : List ServerEvent) : Prop :=
  (answers conn log).map (·.1) <+: requests conn log ∧
    written conn log <+: responses (answers conn log) ∧
    readvalues (answers conn log).length (responses (answers conn log))
      = (answers conn log).map fun p => lookupResult p.2

/-- **Response streams**: in every run in which no descriptor is reused too early and nothing is written
to a connection after a failed `writev`, the stream of every connection is right at all times. -/
theorem responses_in_order {b n : ℕ} {st : Server} {log : List ServerEvent}
    (h : Runs.Reach Server.step
      (fun st log a => a.Ok st ∧ a.Sized ∧ a.NoReuse st ∧ a.NoResume st log) (.start b n) st log)
    (conn : ℕ) : InOrder conn log := by
  obtain ⟨hst, home, hhome⟩ := streams (fun _ _ _ ha => ⟨ha.1, ha.2.2⟩) h
  have hgathered := gathered (fun _ _ _ ha => ha.1) h
  have hanswered : ∀ c e v, .answered c e v ∈ log → .asked c e ∈ log := fun c e v he =>
    asks_threadLog_mem.mp ((hgathered c) ▸ List.mem_append_left _
      (List.mem_map.mpr ⟨(e, v), replies_threadLog_mem he, rfl⟩))
  -- all of it happens in one thread
  have hhere : ∀ c e, .asked c e ∈ log → mine conn e = true → (home conn).1 = c := by
    intro c e he hmine
    rw [mine, decide_eq_true_iff] at hmine
    rw [hhome.asked c e conn he hmine.2]
  have hrequests : requests conn log = (asks (threadLog (home conn).1 log)).filter (mine conn) := by
    refine filter_threadLog fun ev hev e he hmine => ?_
    cases ev with
    | asked c e' =>
        cases he
        rw [hhere c e hev hmine]
        rfl
    | _ => cases he
  have hanswers : answers conn log
      = (replies (threadLog (home conn).1 log)).filter fun p => mine conn p.1 := by
    refine filter_threadLog fun ev hev p hp hmine => ?_
    cases ev with
    | answered c e v =>
        cases hp
        rw [hhere c e (hanswered c e v hev) hmine]
        rfl
    | _ => cases hp
  refine ⟨?_, hst.pre conn, ?_⟩
  · rw [hrequests, hanswers, hgathered, List.filter_append, List.filter_map]
    exact List.prefix_append _ _
  · have hsized : ∀ v ∈ (answers conn log).map (·.2), Fits32 v := by
      intro v hv
      obtain ⟨p, hp, rfl⟩ := List.mem_map.mp hv
      obtain ⟨ev, hev, heq⟩ := List.mem_filterMap.mp (List.mem_filter.mp hp).1
      cases ev with
      | answered c e v =>
          cases heq
          exact answered_sized (fun _ _ _ ha => ha.2.1) h hev
      | _ => cases heq
    have hread := readvalues_responses hsized
    rw [List.length_map, List.map_map, List.flatMap_map] at hread
    exact hread

/-- One more lookup, which misses, from the start of a batch. -/
def missRun : List ServerAct :=
  List.replicate 2 (.client 0 .go) ++
    [.client 0 (.read (HashQuery.bytes ⟨OPTYPE_LOOKUP, 0, 6⟩) .full)] ++
    List.replicate 2 (.client 0 .go) ++ [.client 0 (.answer [none])] ++
    List.replicate 3 (.client 0 .go) ++ [.client 0 (.writev (.wrote 4))]

theorem responses_in_order_two : ∃ st log,
    Runs.Reach Server.step
      (fun st log a => a.Ok st ∧ a.Sized ∧ a.NoReuse st ∧ a.NoResume st log) (.start 1 1) st log ∧
      written 0 log = [2, 0, 0, 0, 1, 2, 0, 0, 0, 0] ∧ InOrder 0 log := by
  have hval : (Runs.run Server.step
      (fun st log a => a.Ok st ∧ a.Sized ∧ a.NoReuse st ∧ a.NoResume st log)
      (releaseRun ++ missRun) (.start 1 1) []).map (fun r => written 0 r.2)
      = some [2, 0, 0, 0, 1, 2, 0, 0, 0, 0] := by
    decide +kernel
  obtain ⟨⟨st, log⟩, hrun, hval⟩ := Option.map_eq_some_iff.mp hval
  have hreach := Runs.Reach.start.run hrun
  exact ⟨st, log, hreach, hval, responses_in_order hreach 0⟩

/-- The response to a lookup that hits is given up when its `writev` fails; the next lookup is answered
all the same. -/
def resumeRun : List ServerAct :=
  lookupRun ++ List.replicate 2 (.client 0 .go) ++ [.client 0 (.answer [some found])] ++
    List.replicate 3 (.client 0 .go) ++ [.client 0 (.writev .fail)] ++
    List.replicate 128 (.client 0 .go) ++ missRun

/-- The client takes the response to its second lookup for that to its first. -/
theorem response_lost : ¬ ∀ (b n : ℕ) (st : Server) (log : List ServerEvent),
    Runs.Reach Server.step (fun st _ a => a.Ok st ∧ a.Sized) (.start b n) st log →
      ∀ conn, InOrder conn log := by
  intro hclaim
  have hval : (Runs.run Server.step (fun st _ a => a.Ok st ∧ a.Sized) resumeRun (.start 1 1) []).map
      (fun r => decide (written 0 r.2 <+: responses (answers 0 r.2))) = some false := by
    decide +kernel
  obtain ⟨⟨st, log⟩, hrun, hval⟩ := Option.map_eq_some_iff.mp hval
  exact of_decide_eq_false hval (hclaim 1 1 st log (Runs.Reach.start.run hrun) 0).2.1

end SmpHashTable.HashServer
