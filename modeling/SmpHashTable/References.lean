import SmpHashTable.Events
import SmpHashTable.RefCount

/-!
# Reference counts over whole runs

`Settled` is the invariant of the abstract queues: the counts of all elements are right for the
handles under way, and every message waits at the server that owns its key or its element's key.
Every event of a run in which handles are given back once keeps it.
-/

namespace SmpHashTable

/-- The queues of `N` clients, the table behind them and the handles under way agree. -/
structure Settled (N : ℕ) (f : Fifo) : Prop where
  refs : RefInv f.table (f.due N)
  answered : ∀ c s, f.table.nservers ≤ s → (f.session c).ans s = []
  routed : ∀ c s, ∀ m ∈ (f.session c).todo s, s = f.owner m
  unborn : ∀ c, N ≤ c → f.session c = Session.empty

/-! ### One event -/

section

variable {N : ℕ} {f f' : Fifo}

theorem Fifo.owner_congr {t : Table} (hn : t.nservers = f.table.nservers) {m : Msg}
    (hkey : ∀ e, m = .release e ∨ m = .markReady e → (t.mem.elem e).key = (f.table.mem.elem e).key)
    (session : ℕ → Session) (held : List Msg) : Fifo.owner ⟨t, session, held⟩ m = f.owner m := by
  cases m with
  | lookup key => simp only [Fifo.owner, hn]
  | insert key size => simp only [Fifo.owner, hn]
  | release e => simp only [Fifo.owner, hn, hkey e (Or.inl rfl)]
  | markReady e => simp only [Fifo.owner, hn, hkey e (Or.inr rfl)]

/-- Sending a message makes and consumes no handle. -/
theorem Settled.due_issue (h : Settled N f) {c s : ℕ} {m : Msg} (hc : c < N)
    (hm : m.isRequest = false → m ∈ f.held) (happly : f.apply (.issue c s m) = some f') (x : Msg)
    (hx : x.isRequest = false) : f'.due N x = f.due N x := by
  refine Fifo.due_issue hc hx (fun hreq => ⟨hm hreq, ?_⟩) happly
  have hpos : 0 < f.due N m := Fifo.due_pos_of_held (hm hreq)
  obtain ⟨howner, -⟩ := Fifo.apply_issue happly
  rw [howner]
  cases m with
  | lookup key => cases hreq
  | insert key size => cases hreq
  | release e => exact h.refs.owned e (h.refs.live_of_due (Or.inl hpos))
  | markReady e => exact h.refs.owned e (h.refs.live_of_due (Or.inr hpos))

/-- A message is sent; one that gives back a handle is held before. -/
theorem Settled.issue (h : Settled N f) {c s : ℕ} {m : Msg} (hc : c < N)
    (hm : m.isRequest = false → m ∈ f.held) (happly : f.apply (.issue c s m) = some f') :
    Settled N f' := by
  have hdue := h.due_issue hc hm happly
  obtain ⟨howner, rfl⟩ := Fifo.apply_issue happly
  refine ⟨h.refs.congr_due hdue, ?_, ?_, ?_⟩
  · intro c' s' hs'
    by_cases hcc : c' = c
    · subst hcc
      simpa [Fifo.setSession, Session.issue] using h.answered c' s' hs'
    · simpa [Fifo.setSession, hcc] using h.answered c' s' hs'
  · intro c' s' m' hm'
    show s' = f.owner m'
    by_cases hcc : c' = c
    · subst hcc
      simp only [Fifo.setSession, Function.update_self, Session.issue] at hm'
      by_cases hss : s' = s
      · subst hss
        rw [Function.update_self] at hm'
        rcases List.mem_append.mp hm' with hold | hnew
        · exact h.routed c' s' m' hold
        · rw [List.mem_singleton.mp hnew]
          exact howner
      · rw [Function.update_of_ne hss] at hm'
        exact h.routed c' s' m' hm'
    · simp only [Fifo.setSession, Function.update_of_ne hcc] at hm'
      exact h.routed c' s' m' hm'
  · intro c' hc'
    have hcc : c' ≠ c := by omega
    simpa [Fifo.setSession, hcc] using h.unborn c' hc'

/-- A session changes and the table does not. -/
theorem Settled.setSession (h : Settled N f) {c : ℕ} (hc : c < N) {x : Session} (held : List Msg)
    (htodo : x.todo = (f.session c).todo)
    (hans : ∀ s, (f.session c).ans s = [] → x.ans s = [])
    (hdue : ∀ m : Msg, m.isRequest = false →
      ({ f.setSession c x with held := held } : Fifo).due N m = f.due N m) :
    Settled N { f.setSession c x with held := held } := by
  refine ⟨h.refs.congr_due hdue, ?_, ?_, ?_⟩
  · intro c' s hs
    by_cases hcc : c' = c
    · subst hcc
      simpa [Fifo.setSession] using hans s (h.answered c' s hs)
    · simpa [Fifo.setSession, hcc] using h.answered c' s hs
  · intro c' s m hm
    show s = f.owner m
    by_cases hcc : c' = c
    · subst hcc
      simp only [Fifo.setSession, Function.update_self, htodo] at hm
      exact h.routed c' s m hm
    · simp only [Fifo.setSession, Function.update_of_ne hcc] at hm
      exact h.routed c' s m hm
  · intro c' hc'
    have hcc : c' ≠ c := by omega
    simpa [Fifo.setSession, hcc] using h.unborn c' hc'

theorem Session.read_todo {x x' : Session} {s v : ℕ} (h : x.read s v = some x') :
    x'.todo = x.todo ∧ x.ans s ≠ [] ∧ ∀ s', x.ans s' = [] → x'.ans s' = [] := by
  unfold Session.read at h
  split at h
  · next r unread a as hun hans =>
    split at h
    · cases h
      refine ⟨rfl, by simp [hans], ?_⟩
      intro s' hs'
      by_cases hss : s' = s
      · subst hss
        rw [hans] at hs'
        cases hs'
      · simpa [hss] using hs'
    · cases h
  · cases h

theorem Session.got_todo {x x' : Session} {v : ℕ} (h : x.got v = some x') :
    x'.todo = x.todo ∧ x'.ans = x.ans := by
  unfold Session.got at h
  split at h
  · split at h
    · cases h
      exact ⟨rfl, rfl⟩
    · cases h
  · cases h

/-- Only a server that exists has answered. -/
theorem Settled.lt_of_read (h : Settled N f) {c s v : ℕ} {x : Session}
    (hx : (f.session c).read s v = some x) : s < f.table.nservers := by
  by_contra hge
  exact (Session.read_todo hx).2.1 (h.answered c s (Nat.le_of_not_lt hge))

theorem Settled.read (h : Settled N f) {c s v : ℕ} (hc : c < N)
    (happly : f.apply (.read c s v) = some f') : Settled N f' := by
  obtain ⟨x, hx, heq⟩ := Fifo.apply_read happly
  obtain ⟨htodo, -, hans⟩ := Session.read_todo hx
  have hdue : ∀ m : Msg, m.isRequest = false → f'.due N m = f.due N m :=
    fun m _ => Fifo.due_read hc (h.lt_of_read hx) happly
  subst heq
  exact h.setSession hc f.held htodo hans hdue

theorem Settled.got (h : Settled N f) {c v : ℕ} (hc : c < N)
    (happly : f.apply (.got c v) = some f') : Settled N f' := by
  obtain ⟨a, x, -, hx, heq⟩ := Fifo.apply_got happly
  obtain ⟨htodo, hans⟩ := Session.got_todo hx
  have hdue : ∀ m : Msg, m.isRequest = false → f'.due N m = f.due N m :=
    fun m _ => Fifo.due_got hc happly
  subst heq
  exact h.setSession hc _ htodo (fun s hs => by rw [hans]; exact hs) hdue

/-- The oldest message of a client is executed by the server it was sent to. -/
theorem Settled.exec (h : Settled N f) {s c : ℕ} {op : Op} {o : Oracle} {resp : Option ℕ}
    {removed : List Removal} (hc : c < N) (hs : s < f.table.nservers)
    (happly : f.apply (.exec s c op o resp removed) = some f') : Settled N f' := by
  obtain ⟨m, rest, t, htodo, hop, hm, rfl⟩ := Fifo.apply_exec happly
  obtain ⟨-, hn⟩ := serverOp_resp hop
  have hhead : m ∈ (f.session c).todo s := by rw [htodo]; exact List.mem_cons_self
  have hroute := h.routed c s m hhead
  have hdue := fun x : Msg => Fifo.due_exec (h := x) hc hs resp hn htodo
  refine ⟨?_, ?_, ?_, ?_⟩
  · show RefInv t _
    cases m with
    | lookup key =>
        subst hm
        refine h.refs.lookup hs (fun x hx => ?_) hop
        have hx' := hdue x
        rw [if_neg (fun heq => by subst heq; cases hx)] at hx'
        exact hx'
    | insert key size =>
        subst hm
        obtain ⟨r, hrun, hret⟩ := Outcome.bind_ok.mp hop
        cases hret
        refine h.refs.insert hs hroute.symm hrun (fun x hx => ?_)
        have hx' := hdue x
        have hhandle : (some (valuePtr r.e)).bind (handleOf (.insert key size)) = some (.markReady r.e) := by
          simp [handleOf, valuePtr, sizeofElem]
        rw [if_neg (fun heq => by subst heq; cases hx), hhandle] at hx'
        simpa [eq_comm] using hx'
    | release e =>
        subst hm
        obtain ⟨mem, hrun, hret⟩ := Outcome.bind_ok.mp hop
        cases hret
        refine h.refs.release (Or.inl rfl) (Fifo.due_pos_of_todo hc hs hhead) (fun x _ => ?_) hrun
        simpa using hdue x
    | markReady e =>
        subst hm
        obtain ⟨mem, hrun, hret⟩ := Outcome.bind_ok.mp hop
        cases hret
        refine h.refs.release (Or.inr rfl) (Fifo.due_pos_of_todo hc hs hhead) (fun x _ => ?_) hrun
        simpa using hdue x
  · intro c' s' hs'
    have hs'' : f.table.nservers ≤ s' := hn ▸ hs'
    have hne : s' ≠ s := by omega
    by_cases hcc : c' = c
    · subst hcc
      cases resp <;> simpa [Fifo.setSession, Session.exec, hne] using h.answered c' s' hs''
    · simpa [Fifo.setSession, hcc] using h.answered c' s' hs''
  · intro c' s' m' hm'
    -- what waits now waited before, and its element has kept its key
    have hold : m' ∈ (f.session c').todo s' := by
      by_cases hcc : c' = c
      · subst hcc
        simp only [Fifo.setSession, Function.update_self, Session.exec] at hm'
        by_cases hss : s' = s
        · subst hss
          rw [Function.update_self] at hm'
          rw [htodo]
          exact List.mem_cons_of_mem _ hm'
        · rwa [Function.update_of_ne hss] at hm'
      · simpa only [Fifo.setSession, Function.update_of_ne hcc] using hm'
    have hr := h.routed c' s' m' hold
    have hc' : c' < N := by
      by_contra hge
      rw [h.unborn c' (Nat.le_of_not_lt hge)] at hold
      cases hold
    have hs' : ∀ e, m' = .release e ∨ m' = .markReady e → s' < f.table.nservers := by
      rintro e (rfl | rfl)
      · rw [hr]
        exact Nat.mod_lt _ (by omega)
      · rw [hr]
        exact Nat.mod_lt _ (by omega)
    refine hr.trans (Fifo.owner_congr hn ?_ _ _).symm
    intro e he
    refine h.refs.key_of_due hs hop ?_
    have hpos := Fifo.due_pos_of_todo hc' (hs' e he) hold
    rcases he with rfl | rfl
    · exact Or.inl hpos
    · exact Or.inr hpos
  · intro c' hc'
    have hcc : c' ≠ c := by omega
    simpa [Fifo.setSession, hcc] using h.unborn c' hc'

/-- A client is created. -/
theorem Settled.create (h : Settled N f) : Settled (N + 1) f := by
  refine ⟨h.refs.congr_due (fun m _ => Fifo.due_succ (h.unborn N le_rfl)), h.answered, h.routed, ?_⟩
  intro c hc
  exact h.unborn c (by omega)

end

/-! ### Whole runs -/

theorem Settled.apply {N : ℕ} {f f' : Fifo} (h : Settled N f) {e : Event} (he : e.Proper N f)
    (happly : f.apply e = some f') : Settled N f' := by
  cases e with
  | issue c s m => exact h.issue he.1 he.2 happly
  | exec s c op o resp removed => exact h.exec he.1 he.2 happly
  | read c s v => exact h.read he happly
  | got c v => exact h.got he happly
  | doallDone c queries values =>
      obtain ⟨-, -, -, -, rfl⟩ := Fifo.apply_doallDone happly
      exact h

theorem settled_init (maxSize nservers : ℕ) (evictalgo : Evictalgo) :
    Settled 0 (Fifo.init (createHashTable maxSize nservers evictalgo)) := by
  have hnil : ∀ s, ((createHashTable maxSize nservers evictalgo).part s).elems = [] :=
    fun s => Lists.cat_const_nil _
  have hdue : ∀ m, (Fifo.init (createHashTable maxSize nservers evictalgo)).due 0 m = 0 := fun m => rfl
  have hhas : ∀ e, ¬ (createHashTable maxSize nservers evictalgo).Has e := by
    rintro e ⟨s, -, he⟩
    rw [hnil s] at he
    cases he
  have hlive : ∀ e, ¬ (createHashTable maxSize nservers evictalgo).mem.Live e := by
    intro e he
    cases he
  refine ⟨⟨?_, ?_, ?_, ?_, ?_, ?_⟩, fun _ _ _ => rfl, ?_, fun _ _ => rfl⟩
  · intro s hs
    have hn : 0 < nservers := lt_of_le_of_lt (Nat.zero_le s) hs
    have hge := initNhash_ge (maxSize / nservers) nservers hn
    exact (emptyPartition_rep Mem.empty (by omega)).toShape
  · intro s _ e he
    have he' : e ∈ ((createHashTable maxSize nservers evictalgo).part s).elems := he
    rw [hnil s] at he'
    cases he'
  · exact fun e he => absurd he (hlive e)
  · intro e
    rw [hdue]
    omega
  · intro e he
    rw [hdue] at he
    cases he
  · have hrefs : ∀ e, (createHashTable maxSize nservers evictalgo).refs
        ((Fifo.init (createHashTable maxSize nservers evictalgo)).due 0) e = 0 := by
      intro e
      unfold Table.refs
      rw [if_neg (hhas e), hdue, hdue]
    refine ⟨?_, ?_⟩
    · intro e
      refine ⟨fun he => absurd he (hlive e), fun he => ?_⟩
      have he' := hrefs e
      have : (Fifo.init (createHashTable maxSize nservers evictalgo)).table
          = createHashTable maxSize nservers evictalgo := rfl
      rw [this, he'] at he
      cases he
    · intro e he
      have he' := hrefs e
      have : (Fifo.init (createHashTable maxSize nservers evictalgo)).table
          = createHashTable maxSize nservers evictalgo := rfl
      rw [this, he'] at he
      cases he

  · intro c s m hm
    cases hm

/-- **Every state of a disciplined run** is a state of the queues with right counts. -/
theorem disciplined_settled {maxSize nservers : ℕ} {evictalgo : Evictalgo} {st : Sys} {log : List Event}
    (h : Sys.Disciplined (createHashTable maxSize nservers evictalgo) st log) :
    ∃ f, (Fifo.init (createHashTable maxSize nservers evictalgo)).replay log = some f ∧ Coupled st f ∧
      Settled st.nclients f := by
  obtain ⟨f, g, hlog, hcoup, hset⟩ := h.invariant (fun _ g _ => g) ()
    (Q := fun N f _ => Settled N f) (settled_init maxSize nservers evictalgo) (fun h => h.create)
    fun h he happly => h.apply he happly
  exact ⟨f, Fifo.replayWith_some (x := (Fifo.init _, ())) |>.mpr ⟨g, hlog⟩, hcoup, hset⟩

/-! ### No use of freed memory -/

section

variable {N : ℕ} {f : Fifo} {st : Sys}

/-- An element with a handle in a queue is live. -/
theorem Settled.live_of_todo (h : Settled N f) {c s e : ℕ} {m : Msg} (hm : m ∈ (f.session c).todo s)
    (he : m = .release e ∨ m = .markReady e) (hs : s < f.table.nservers) : f.table.mem.Live e := by
  have hc : c < N := by
    by_contra hge
    rw [h.unborn c (Nat.le_of_not_lt hge)] at hm
    cases hm
  have hpos := Fifo.due_pos_of_todo hc hs hm
  rcases he with rfl | rfl
  · exact h.refs.live_of_due (Or.inl hpos)
  · exact h.refs.live_of_due (Or.inr hpos)

theorem Settled.serverOp_ne_fault (h : Settled N f) {c s : ℕ} {m : Msg}
    (hm : m ∈ (f.session c).todo s) (hs : s < f.table.nservers) (o : Oracle) :
    serverOp f.table s o m.op ≠ .error .fault := by
  have hrel : ∀ e, m = .release e ∨ m = .markReady e →
      serverOp f.table s o (.release e) ≠ .error .fault := by
    intro e he hfault
    rcases Outcome.bind_error.mp hfault with hrun | ⟨mem, -, hret⟩
    · obtain ⟨mem, hok⟩ := mpRelease.total (h.live_of_todo hm he hs)
      have hrun' : mpRelease.run f.table.mem e = .error .fault := hrun
      rw [hrun'] at hok
      cases hok
    · cases hret
  cases m with
  | lookup key =>
      intro hfault
      simp only [Msg.op, serverOp] at hfault
      split at hfault
      · split at hfault
        · cases hfault
        · cases hfault
      · cases hfault
  | insert key size =>
      intro hfault
      rcases Outcome.bind_error.mp hfault with hrun | ⟨r, -, hret⟩
      · exact hashInsert_ne_fault (h.refs.shape s hs) key _ o hrun
      · cases hret
  | release e => exact hrel e (Or.inl rfl)
  | markReady e => exact hrel e (Or.inr rfl)

theorem serverStep_ne_fault (hcoup : Coupled st f) (h : Settled N f) {s : ℕ} (hs : s < st.nservers)
    (o : Oracle) : serverStep st s o ≠ .error .fault := by
  intro hfault
  cases hpc : (st.server s).pc with
  | top =>
      simp only [serverStep, hpc] at hfault
      cases hfault
  | clients =>
      simp only [serverStep, hpc] at hfault
      cases hfault
  | poll i n =>
      simp only [serverStep, hpc] at hfault
      cases hfault
  | read i n pc =>
      simp only [serverStep, hpc] at hfault
      split at hfault <;> cases hfault
  | exec i n count k j =>
      obtain ⟨t, htodo, hb⟩ := (hcoup.client i).box s
      simp only [Server.turn_exec hpc, if_pos] at hb
      simp only [serverStep, hpc] at hfault
      split at hfault
      · next hk =>
        obtain ⟨m, rest, rfl, hdec, -⟩ := hb.execStep hk
        simp only [hdec] at hfault
        have hm : m ∈ (f.session i).todo s := by
          rw [htodo]
          exact List.mem_append_left _ List.mem_cons_self
        have hs' : s < f.table.nservers := by
          rw [hcoup.table]
          exact hs
        rcases Outcome.bind_error.mp hfault with hop | ⟨x, -, hret⟩
        · rw [← hcoup.table] at hop
          exact h.serverOp_ne_fault hm hs' o hop
        · cases hret
      · split at hfault
        · cases hfault
        · cases hfault
  | write i n j m =>
      simp only [serverStep, hpc] at hfault
      split at hfault <;> cases hfault
  | returned =>
      simp only [serverStep, hpc] at hfault
      cases hfault

theorem sendReleaseMsg_ne_fault {t : Table} {c : ℕ} {cl : Client} {ptr : ℕ} {msg : ℕ → Msg} {b : Bool}
    (hlive : t.mem.Live (sub64 ptr sizeofElem)) : sendReleaseMsg t c cl ptr msg b ≠ .error .fault := by
  simp only [sendReleaseMsg, if_pos hlive]
  split
  · simp
  · simp

end

/-! ### What the counts say -/

/-- The references to `e` in a state of the queues of `N` clients. -/
def Fifo.refs (N : ℕ) (f : Fifo) (e : ℕ) : ℕ := f.table.refs (f.due N) e

/-- The element is in the table and its insert has not been marked ready. -/
def Fifo.Pending (N : ℕ) (f : Fifo) (e : ℕ) : Prop := f.table.Pending (f.due N) e

/-- The count of an element, its flag and its block agree with the references to it. -/
structure Exact (N : ℕ) (f : Fifo) : Prop where
  live_iff : ∀ e, f.table.mem.Live e ↔ 0 < f.refs N e
  low : ∀ e, f.table.mem.Live e →
    (f.table.mem.elem e).refCount % 2 ^ 63 = f.refs N e % 2 ^ 63 ∧ f.refs N e ≤ 2 ^ 63
  flag : ∀ e, f.table.mem.Live e →
    (f.Pending N e → (f.table.mem.elem e).refCount &&& DATA_READY_MASK ≠ 0) ∧
      (f.refs N e + 1 < 2 ^ 63 →
        ((f.table.mem.elem e).refCount &&& DATA_READY_MASK ≠ 0 ↔ f.Pending N e))
  routed : ∀ c s e, .release e ∈ (f.session c).todo s ∨ .markReady e ∈ (f.session c).todo s →
    s = hashGetServer f.table.nservers (f.table.mem.elem e).key

theorem Settled.exact {N : ℕ} {f : Fifo} (h : Settled N f) : Exact N f := by
  refine ⟨h.refs.counted.live_iff, ?_, ?_, ?_⟩
  · intro e he
    exact (h.refs.counted.ok e ((h.refs.counted.live_iff e).mp he)).low
  · intro e he
    exact (h.refs.counted.ok e ((h.refs.counted.live_iff e).mp he)).flag
  · rintro c s e (hm | hm)
    · exact h.routed c s _ hm
    · exact h.routed c s _ hm

/-- **Reference counting is exact** in every state of every run in which handles are given back once;
no server and no release call ever uses a block that is not live. -/
theorem disciplined_exact {maxSize nservers : ℕ} {evictalgo : Evictalgo} {st : Sys} {log : List Event}
    (h : Sys.Disciplined (createHashTable maxSize nservers evictalgo) st log) :
    ∃ f, (Fifo.init (createHashTable maxSize nservers evictalgo)).replay log = some f ∧
      f.table = st.table ∧ Exact st.nclients f ∧
      (∀ s o, st.step (.server s o) ≠ .error .fault) ∧
      ∀ c k, (Act.call c k).Returns (createHashTable maxSize nservers evictalgo) log →
        st.step (.call c k) ≠ .error .fault := by
  obtain ⟨f, hlog, hcoup, hset⟩ := disciplined_settled h
  have hlive : ∀ e, (∃ f', (Fifo.init (createHashTable maxSize nservers evictalgo)).replay log = some f' ∧
      (.release e ∈ f'.held ∨ .markReady e ∈ f'.held)) → st.table.mem.Live e := by
    rintro e ⟨f', hlog', hheld⟩
    rw [hlog, Option.some.injEq] at hlog'
    subst hlog'
    rw [← hcoup.table]
    rcases hheld with hheld | hheld
    · exact hset.refs.live_of_due (Or.inl (Fifo.due_pos_of_held hheld))
    · exact hset.refs.live_of_due (Or.inr (Fifo.due_pos_of_held hheld))
  refine ⟨f, hlog, hcoup.table, hset.exact, ?_, ?_⟩
  · intro s o
    simp only [Sys.step]
    split
    · next hs => exact serverStep_ne_fault hcoup hset hs o
    · simp
  · intro c k hret
    have hmap : ∀ x : Except Stop (Client × List Event), x ≠ .error .fault →
        (x.map fun r => (st.setClient c r.1, r.2)) ≠ .error .fault := by
      intro x hx
      cases x with
      | ok a => simp [Except.map]
      | error e => simpa [Except.map] using hx
    simp only [Sys.step]
    split
    · split
      · refine hmap _ ?_
        cases k with
        | lookup key => simp [startCall]
        | insert key size => simp [startCall]
        | tryGetNext => simp [startCall]
        | getNext => simp [startCall]
        | release ptr =>
            obtain ⟨f', hlog', hheld⟩ := hret
            simp only [startCall]
            exact sendReleaseMsg_ne_fault (hlive _ ⟨f', hlog', Or.inl hheld⟩)
        | markReady ptr =>
            obtain ⟨f', hlog', hheld⟩ := hret
            simp only [startCall]
            exact sendReleaseMsg_ne_fault (hlive _ ⟨f', hlog', Or.inr hheld⟩)
        | doall queries => simp [startCall]
      · simp
    · simp

/-- An insert marked ready, a lookup of it, and the release of the lookup not yet sent off. -/
def releaseRun : List Act := List.flatten [
  [.create (fun _ => 0) (fun _ => 0), .start fun _ _ => 0],
  .call 0 (.insert 5 8) :: List.replicate 3 (.client 0),
  .call 0 .getNext :: List.replicate 7 (.client 0),
  List.replicate 13 (.server 0 ⟨[some 64], []⟩), List.replicate 2 (.client 0),
  .call 0 (.markReady 128) :: List.replicate 6 (.client 0),
  .call 0 (.lookup 5) :: List.replicate 3 (.client 0),
  .call 0 .getNext :: List.replicate 6 (.client 0),
  List.replicate 23 (.server 0 ⟨[], []⟩), List.replicate 2 (.client 0),
  .call 0 (.release 128) :: List.replicate 2 (.client 0)]

theorem disciplined_exact_release : ∃ st log,
    Sys.Disciplined (createHashTable 1024 1 .lru) st log ∧ (st.table.mem.elem 64).refCount = 2 ∧
      ∃ f, (Fifo.init (createHashTable 1024 1 .lru)).replay log = some f ∧ f.table = st.table ∧
        f.refs 1 64 = 2 ∧ Exact 1 f := by
  have hval : (Runs.run Sys.step
      (fun st log a => a.Ok st ∧ a.Returns (createHashTable 1024 1 .lru) log) releaseRun
      (Sys.init (createHashTable 1024 1 .lru)) []).map
        (fun r => (r.1.nclients, (r.1.table.mem.elem 64).refCount,
          ((Fifo.init (createHashTable 1024 1 .lru)).replay r.2).map (Fifo.refs 1 · 64)))
      = some (1, 2, some 2) := by
    decide +kernel
  obtain ⟨⟨st, log⟩, hrun, heq⟩ := Option.map_eq_some_iff.mp hval
  have hreach : Sys.Disciplined (createHashTable 1024 1 .lru) st log := Runs.Reach.start.run hrun
  obtain ⟨hcl, heq⟩ := Prod.mk.inj heq
  obtain ⟨hcount, hrefs⟩ := Prod.mk.inj heq
  obtain ⟨f, hlog, htable, hexact, -⟩ := disciplined_exact hreach
  rw [hlog, Option.map_some, Option.some.injEq] at hrefs
  simp only at hcl
  rw [hcl] at hexact
  exact ⟨st, log, hreach, hcount, f, hlog, htable, hrefs, hexact⟩

/-! ### How many references there can be -/

section

variable {N : ℕ} {f f' : Fifo} {log : List Event}

/-- An event makes at most one handle of a lookup. -/
theorem Settled.releases_le (hset : Settled N f) {ev : Event} (hev : ev.Proper N f)
    (happly : f.apply ev = some f') (e : ℕ) : f'.due N (.release e) ≤ f.due N (.release e) + 1 := by
  cases ev with
  | issue c s m => exact (hset.due_issue hev.1 hev.2 happly _ rfl).le.trans (Nat.le_succ _)
  | exec s c op o resp removed =>
      obtain ⟨m, rest, t, htodo, hop, -, rfl⟩ := Fifo.apply_exec happly
      have hx := Fifo.due_exec (h := .release e) hev.1 hev.2 resp (serverOp_resp hop).2 htodo
      split at hx
      · split at hx <;> omega
      · split at hx <;> omega
  | read c s v =>
      obtain ⟨x, hx, -⟩ := Fifo.apply_read happly
      exact (Fifo.due_read hev (hset.lt_of_read hx) happly).le.trans (Nat.le_succ _)
  | got c v => exact (Fifo.due_got hev happly).le.trans (Nat.le_succ _)
  | doallDone c queries values =>
      obtain ⟨-, -, -, -, rfl⟩ := Fifo.apply_doallDone happly
      exact Nat.le_succ _

/-- The counts are right, and no element has more handles of lookups than there were events. -/
structure HandleInv (N : ℕ) (f : Fifo) (log : List Event) : Prop where
  settled : Settled N f
  releases : ∀ e, f.due N (.release e) ≤ log.length

theorem handleInv_init (maxSize nservers : ℕ) (evictalgo : Evictalgo) :
    HandleInv 0 (Fifo.init (createHashTable maxSize nservers evictalgo)) [] :=
  ⟨settled_init maxSize nservers evictalgo, fun _ => Nat.zero_le _⟩

theorem HandleInv.create (h : HandleInv N f log) : HandleInv (N + 1) f log :=
  ⟨h.settled.create, fun e => (Fifo.due_succ (h.settled.unborn N le_rfl)).le.trans (h.releases e)⟩

theorem HandleInv.apply (h : HandleInv N f log) {ev : Event} (hev : ev.Proper N f)
    (happly : f.apply ev = some f') : HandleInv N f' (log ++ [ev]) := by
  refine ⟨h.settled.apply hev happly, ?_⟩
  intro e
  rw [List.length_append, List.length_singleton]
  exact (h.settled.releases_le hev happly e).trans (Nat.succ_le_succ (h.releases e))

/-- An element with a mark-ready handle has no other, so the length of the log bounds the references. -/
theorem HandleInv.refs_lt (h : HandleInv N f log) (hlen : log.length + 2 < 2 ^ 63) (e : ℕ) :
    f.refs N e + 1 < 2 ^ 63 := by
  have hmark := h.settled.refs.marking e
  have hearly := h.settled.refs.early e
  have hrel := h.releases e
  unfold Fifo.refs Table.refs
  split <;> omega

theorem disciplined_handles {maxSize nservers : ℕ} {evictalgo : Evictalgo} {st : Sys} {log : List Event}
    (h : Sys.Disciplined (createHashTable maxSize nservers evictalgo) st log) :
    ∃ f, (Fifo.init (createHashTable maxSize nservers evictalgo)).replay log = some f ∧ Coupled st f ∧
      HandleInv st.nclients f log :=
  h.history (handleInv_init maxSize nservers evictalgo) (fun h => h.create) fun h hev happly =>
    h.apply hev happly

end

end SmpHashTable
