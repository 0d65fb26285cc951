import SmpHashTable.Handles

/-!
# Disciplined runs, event by event

A step of the system reports events that are proper for the queues: they name clients and servers
that exist, and a message that gives back a handle is sent by a client that holds it.  So what every
proper event keeps holds in every disciplined run; the rule at the end says this, also for a ghost
state that follows the events.
-/

namespace SmpHashTable

/-- What an event says about where it comes from, on `N` clients and `n` servers. -/
def Event.From (N n : ℕ) : Event → Prop
  | .issue c _ m => c < N ∧ m.isRequest = true
  | .exec s c _ _ _ _ => c < N ∧ s < n
  | .read c _ _ => c < N
  | .got c _ => c < N
  | .doallDone _ _ _ => True

/-- The same for an event at the queues `f`, where handles may be given back. -/
def Event.Proper (N : ℕ) (f : Fifo) : Event → Prop
  | .issue c _ m => c < N ∧ (m.isRequest = false → m ∈ f.held)
  | e => e.From N f.table.nservers

/-- All events of a list are proper when their turn comes. -/
def Fifo.Proper (N : ℕ) : Fifo → List Event → Prop
  | _, [] => True
  | f, e :: evs => e.Proper N f ∧ ∀ f', f.apply e = some f' → Fifo.Proper N f' evs

theorem Event.From.proper {N : ℕ} {f : Fifo} {e : Event} (h : e.From N f.table.nservers) :
    e.Proper N f := by
  cases e with
  | issue c s m =>
      refine ⟨h.1, fun hreq => ?_⟩
      rw [h.2] at hreq
      cases hreq
  | exec s c op o resp removed => exact h
  | read c s v => exact h
  | got c v => exact h
  | doallDone c queries values => trivial

theorem Fifo.proper_of_from {N : ℕ} {f : Fifo} {evs : List Event}
    (h : ∀ e ∈ evs, e.From N f.table.nservers) : f.Proper N evs := by
  induction evs generalizing f with
  | nil => trivial
  | cons e evs ih =>
      refine ⟨(h e List.mem_cons_self).proper, ?_⟩
      intro f' happly
      refine ih ?_
      intro e' he'
      rw [Fifo.apply_nservers happly]
      exact h e' (List.mem_cons_of_mem e he')

/-! ### The events of a step -/

theorem takeValue_from {N n c : ℕ} (hc : c < N) (cl : Client) : ∀ e ∈ (takeValue c cl).2, e.From N n := by
  intro e he
  rw [List.mem_singleton.mp he]
  exact hc

theorem deliver_from {N n c s v : ℕ} (hc : c < N) (cl : Client) (ret : ReadRet) :
    ∀ e ∈ (deliver c s v cl ret).2, e.From N n := by
  have hread : ∀ e : Event, e = .read c s v ∨ e = .got c v → e.From N n := by
    rintro e (rfl | rfl)
    · exact hc
    · exact hc
  intro e he
  cases ret with
  | window m =>
      rw [List.mem_singleton.mp he]
      exact hc
  | getNext =>
      rcases List.mem_cons.mp he with rfl | he
      · exact hc
      · exact takeValue_from hc _ e he
  | doall d => exact hread e (by simpa [deliver] using he)
  | drain d => exact hread e (by simpa [deliver] using he)

theorem HashQuery.isRequest_of_msg {q : HashQuery} {m : Msg} (h : q.msg = some m) : m.isRequest = true := by
  unfold HashQuery.msg at h
  split at h
  · cases h
    rfl
  · split at h
    · cases h
      rfl
    · cases h

theorem SendInv.isRequest {n s : ℕ} {x : Session} {m : Msg} {ret : WriteRet} (h : SendInv n x s m ret)
    (hret : ∀ b, ret ≠ .release b) : m.isRequest = true := by
  cases ret with
  | request => exact h.2.1
  | release b => exact absurd rfl (hret b)
  | doall d =>
      obtain ⟨q, -, hq, -⟩ := h
      exact q.isRequest_of_msg hq

theorem clientStep_from {N n c : ℕ} (hc : c < N) {cl cl' : Client} {x : Session} {evs : List Event}
    (hpc : PcInv n x cl.pc) (hstep : clientStep n c cl = .ok (cl', evs)) : ∀ e ∈ evs, e.From N n := by
  have hnone : evs = [] → ∀ e ∈ evs, e.From N n := by
    rintro rfl e he
    cases he
  obtain ⟨pc, pd, box⟩ := cl
  cases pc with
  | idle => cases hstep
  | window m =>
      simp only [clientStep] at hstep
      split at hstep
      · cases hstep
        exact hnone rfl
      · cases hstep
        exact hnone rfl
  | write s m ret =>
      simp only [clientStep] at hstep
      split at hstep
      · split at hstep
        · cases hstep
          exact hnone rfl
        · cases hstep
          exact hnone rfl
      · cases hstep
  | append s m ret =>
      simp only [clientStep] at hstep
      have hsend : SendInv n x s m ret := hpc
      cases ret with
      | request =>
          cases hstep
          intro e he
          rw [List.mem_singleton.mp he]
          exact ⟨hc, hsend.isRequest (by simp)⟩
      | release b =>
          cases hstep
          exact hnone rfl
      | doall d =>
          cases hstep
          intro e he
          rw [List.mem_singleton.mp he]
          exact ⟨hc, hsend.isRequest (by simp)⟩
  | flush s pc ret =>
      simp only [clientStep] at hstep
      split at hstep
      · cases hstep
        exact hnone rfl
      · cases hstep
        exact hnone rfl
  | load s blocking ret =>
      cases hstep
      exact hnone rfl
  | take s blocking ret =>
      simp only [clientStep] at hstep
      split at hstep
      · cases hstep
        exact hnone rfl
      · have hevs := congrArg Prod.snd (Except.ok.inj hstep)
        simp only at hevs
        rw [← hevs]
        exact deliver_from hc _ ret
  | doall d =>
      simp only [clientStep] at hstep
      split at hstep
      · split at hstep
        · cases hstep
          exact hnone rfl
        · split at hstep
          · cases hstep
            exact hnone rfl
          · cases hstep
      · cases hstep
        exact hnone rfl
  | flushAll d s =>
      simp only [clientStep] at hstep
      split at hstep
      · cases hstep
        exact hnone rfl
      · cases hstep
        exact hnone rfl
  | drain d =>
      simp only [clientStep] at hstep
      split at hstep
      · cases hstep
        exact hnone rfl
      · cases hstep
        intro e he
        rw [List.mem_singleton.mp he]
        trivial

theorem serverStep_from {st st' : Sys} {s : ℕ} {o : Oracle} {evs : List Event} (hs : s < st.nservers)
    (hwithin : (st.server s).pc.Within st.nclients) (hstep : serverStep st s o = .ok (st', evs)) :
    ∀ e ∈ evs, e.From st.nclients st.nservers := by
  have hnone : evs = [] → ∀ e ∈ evs, e.From st.nclients st.nservers := by
    rintro rfl e he
    cases he
  cases hpc : (st.server s).pc with
  | top =>
      simp only [serverStep, hpc] at hstep
      cases hstep
      exact hnone rfl
  | clients =>
      simp only [serverStep, hpc] at hstep
      cases hstep
      exact hnone rfl
  | poll i n =>
      simp only [serverStep, hpc] at hstep
      cases hstep
      exact hnone rfl
  | read i n pc =>
      simp only [serverStep, hpc] at hstep
      split at hstep
      · cases hstep
        exact hnone rfl
      · cases hstep
        exact hnone rfl
  | exec i n count k j =>
      rw [hpc] at hwithin
      simp only [serverStep, hpc] at hstep
      split at hstep
      · split at hstep
        · cases hstep
        · obtain ⟨⟨t, resp, removed⟩, -, hret⟩ := Outcome.bind_ok.mp hstep
          cases hret
          intro e he
          rw [List.mem_singleton.mp he]
          exact ⟨lt_of_lt_of_le hwithin.1 hwithin.2, hs⟩
      · split at hstep
        · cases hstep
          exact hnone rfl
        · cases hstep
  | write i n j m =>
      simp only [serverStep, hpc] at hstep
      split at hstep
      · cases hstep
        exact hnone rfl
      · cases hstep
        exact hnone rfl
  | returned =>
      simp only [serverStep, hpc] at hstep
      cases hstep

/-- A release call sends the handle it gives back, or nothing. -/
theorem sendReleaseMsg_events {t : Table} {c : ℕ} {cl cl' : Client} {ptr : ℕ} {msg : ℕ → Msg} {b : Bool}
    {evs : List Event} (h : sendReleaseMsg t c cl ptr msg b = .ok (cl', evs)) :
    ∃ s, evs = [.issue c s (msg (sub64 ptr sizeofElem))] := by
  simp only [sendReleaseMsg] at h
  split at h
  · split at h
    · cases h
      exact ⟨_, rfl⟩
    · cases h
  · cases h

theorem startCall_proper {N : ℕ} {t₀ t : Table} {f : Fifo} {log : List Event}
    (hlog : (Fifo.init t₀).replay log = some f) {c : ℕ} (hc : c < N) {cl cl' : Client} {k : Call}
    {evs : List Event} (hret : (Act.call c k).Returns t₀ log)
    (hstep : startCall t c cl k = .ok (cl', evs)) : f.Proper N evs := by
  -- a handle is held when it is given back
  have hgive : ∀ (m : Msg) (s : ℕ), (∃ f, (Fifo.init t₀).replay log = some f ∧ m ∈ f.held) →
      f.Proper N [.issue c s m] := by
    rintro m s ⟨f₀, hlog₀, hheld⟩
    rw [hlog, Option.some.injEq] at hlog₀
    subst hlog₀
    exact ⟨⟨hc, fun _ => hheld⟩, fun _ _ => trivial⟩
  cases k with
  | lookup key =>
      cases hstep
      trivial
  | insert key size =>
      cases hstep
      trivial
  | tryGetNext =>
      simp only [startCall, Except.ok.injEq] at hstep
      split at hstep
      · cases hstep
        trivial
      · have hevs := congrArg Prod.snd hstep
        simp only at hevs
        rw [← hevs]
        exact Fifo.proper_of_from (takeValue_from hc cl)
  | getNext =>
      simp only [startCall, Except.ok.injEq] at hstep
      split at hstep
      · cases hstep
        trivial
      · split at hstep
        · cases hstep
          trivial
        · have hevs := congrArg Prod.snd hstep
          simp only at hevs
          rw [← hevs]
          exact Fifo.proper_of_from (takeValue_from hc cl)
  | release ptr =>
      simp only [startCall] at hstep
      obtain ⟨s, rfl⟩ := sendReleaseMsg_events hstep
      exact hgive _ s hret
  | markReady ptr =>
      simp only [startCall] at hstep
      obtain ⟨s, rfl⟩ := sendReleaseMsg_events hstep
      exact hgive _ s hret
  | doall queries =>
      cases hstep
      trivial

/-- **A step of a disciplined run** creates a client or reports proper events. -/
theorem Coupled.step_proper {t₀ : Table} {st st' : Sys} {f : Fifo} {log evs : List Event} {a : Act}
    (h : Coupled st f) (hlog : (Fifo.init t₀).replay log = some f) (hret : a.Returns t₀ log)
    (hstep : st.step a = .ok (st', evs)) :
    f.Proper st.nclients evs ∧
      (st'.nclients = st.nclients ∨ st'.nclients = st.nclients + 1 ∧ evs = []) := by
  have hn : f.table.nservers = st.nservers := by rw [h.table]; rfl
  cases a with
  | create values servers =>
      obtain ⟨st₁, h₁, heq⟩ := Outcome.map_ok.mp hstep
      cases heq
      refine ⟨trivial, Or.inr ?_⟩
      unfold SmpHashTable.createClient at h₁
      split at h₁
      · split at h₁
        · cases h₁
          exact ⟨rfl, rfl⟩
        · cases h₁
      · cases h₁
  | start stack =>
      obtain ⟨st₁, h₁, heq⟩ := Outcome.map_ok.mp hstep
      cases heq
      refine ⟨trivial, Or.inl ?_⟩
      unfold SmpHashTable.startServers at h₁
      split at h₁
      · cases h₁
        rfl
      · cases h₁
  | stop =>
      simp only [Sys.step] at hstep
      split at hstep
      · cases hstep
        exact ⟨trivial, Or.inl rfl⟩
      · cases hstep
  | stopper =>
      obtain ⟨st₁, h₁, heq⟩ := Outcome.map_ok.mp hstep
      cases heq
      exact ⟨trivial, Or.inl (stopperStep_frame h₁).1⟩
  | call c k =>
      simp only [Sys.step] at hstep
      split at hstep
      · split at hstep
        · next hc =>
          obtain ⟨⟨cl, evs'⟩, h₁, heq⟩ := Outcome.map_ok.mp hstep
          cases heq
          exact ⟨startCall_proper hlog hc hret h₁, Or.inl rfl⟩
        · cases hstep
      · cases hstep
  | client c =>
      obtain ⟨⟨cl, evs'⟩, h₁, heq⟩ := Outcome.map_ok.mp hstep
      cases heq
      have hc : c < st.nclients := by
        by_contra hge
        simp only [SmpHashTable.clientStep, (h.unborn c (Nat.le_of_not_lt hge)).1] at h₁
        cases h₁
      have hfrom := clientStep_from hc (h.client c).pc h₁
      rw [← hn] at hfrom
      exact ⟨Fifo.proper_of_from hfrom, Or.inl rfl⟩
  | server s o =>
      simp only [Sys.step] at hstep
      split at hstep
      · next hs =>
        have hfrom := serverStep_from hs (h.within s) hstep
        rw [← hn] at hfrom
        exact ⟨Fifo.proper_of_from hfrom, Or.inl (serverStep_frame hstep).1.nclients⟩
      · cases hstep

/-! ### Ghost states -/

section

variable {G : Type} {ghost : Fifo → G → Event → G}

/-- An event at the queues, with a ghost state that follows it. -/
def Fifo.applyWith (ghost : Fifo → G → Event → G) (x : Fifo × G) (e : Event) : Option (Fifo × G) :=
  (x.1.apply e).map fun f => (f, ghost x.1 x.2 e)

/-- The queues and the ghost state after a log. -/
def Fifo.replayWith (ghost : Fifo → G → Event → G) (x : Fifo × G) (log : List Event) :
    Option (Fifo × G) := Runs.replay (Fifo.applyWith ghost) x log

/-- The ghost state does not influence the queues. -/
theorem Fifo.replayWith_some {x : Fifo × G} {evs : List Event} {f : Fifo} :
    x.1.replay evs = some f ↔ ∃ g, Fifo.replayWith ghost x evs = some (f, g) := by
  induction evs generalizing x with
  | nil =>
      constructor
      · intro h
        cases h
        exact ⟨x.2, rfl⟩
      · rintro ⟨g, h⟩
        cases h
        rfl
  | cons e evs ih =>
      simp only [Fifo.replay, Fifo.replayWith, Runs.replay, Fifo.applyWith] at ih ⊢
      cases happly : x.1.apply e with
      | none => simp
      | some f₁ =>
          simp only [Option.bind_some, Option.map_some]
          exact ih (x := (f₁, _))

/-- **What every proper event keeps holds in every disciplined run.** -/
theorem Sys.Disciplined.invariant (ghost : Fifo → G → Event → G) {t₀ : Table} (g₀ : G)
    {Q : ℕ → Fifo → G → Prop} (h₀ : Q 0 (Fifo.init t₀) g₀)
    (hcreate : ∀ {N : ℕ} {f : Fifo} {g : G}, Q N f g → Q (N + 1) f g)
    (happly : ∀ {N : ℕ} {f f' : Fifo} {g : G} {e : Event}, Q N f g → e.Proper N f →
      f.apply e = some f' → Q N f' (ghost f g e))
    {st : Sys} {log : List Event} (h : Sys.Disciplined t₀ st log) :
    ∃ f g, Fifo.replayWith ghost (Fifo.init t₀, g₀) log = some (f, g) ∧ Coupled st f ∧
      Q st.nclients f g := by
  -- what every event keeps, a list of events keeps
  have hrun : ∀ {N : ℕ} {evs : List Event} {f f' : Fifo} {g g' : G}, Q N f g → f.Proper N evs →
      Fifo.replayWith ghost (f, g) evs = some (f', g') → Q N f' g' := by
    intro N evs
    induction evs with
    | nil =>
        intro f f' g g' hQ _ hevs
        cases hevs
        exact hQ
    | cons e evs ih =>
        intro f f' g g' hQ hproper hevs
        obtain ⟨⟨f₁, g₁⟩, h₁, hevs⟩ := Option.bind_eq_some_iff.mp hevs
        obtain ⟨f₂, h₂, heq⟩ := Option.map_eq_some_iff.mp h₁
        cases heq
        exact ih (happly hQ hproper.1 h₂) (hproper.2 _ h₂) hevs
  refine Runs.Reach.invariant (P := fun st log => ∃ f g,
    Fifo.replayWith ghost (Fifo.init t₀, g₀) log = some (f, g) ∧ Coupled st f ∧ Q st.nclients f g)
    ⟨_, g₀, rfl, coupled_init t₀, h₀⟩ ?_ h
  rintro st st' log evs a ⟨f, g, hlog, hcoup, hQ⟩ ⟨hok, hret⟩ hstep
  obtain ⟨f', hevs, hcoup'⟩ := hcoup.step hok hstep
  have hlog' : (Fifo.init t₀).replay log = some f :=
    Fifo.replayWith_some (x := (Fifo.init t₀, g₀)) |>.mpr ⟨g, hlog⟩
  obtain ⟨g', hevs'⟩ := Fifo.replayWith_some (x := (f, g)) |>.mp hevs
  obtain ⟨hproper, hn⟩ := hcoup.step_proper hlog' hret hstep
  refine ⟨f', g', ?_, hcoup', ?_⟩
  · rw [Fifo.replayWith, Runs.replay_append]
    exact Option.bind_eq_some_iff.mpr ⟨(f, g), hlog, hevs'⟩
  · have hQ' := hrun hQ hproper hevs'
    rcases hn with hn | ⟨hn, -⟩
    · rw [hn]
      exact hQ'
    · rw [hn]
      exact hcreate hQ'

end

/-- The rule for ghost states that are the log itself. -/
theorem Sys.Disciplined.history {t₀ : Table} {Q : ℕ → Fifo → List Event → Prop}
    (h₀ : Q 0 (Fifo.init t₀) []) (hcreate : ∀ {N : ℕ} {f : Fifo} {log : List Event}, Q N f log → Q (N + 1) f log)
    (happly : ∀ {N : ℕ} {f f' : Fifo} {log : List Event} {e : Event}, Q N f log → e.Proper N f →
      f.apply e = some f' → Q N f' (log ++ [e]))
    {st : Sys} {log : List Event} (h : Sys.Disciplined t₀ st log) :
    ∃ f, (Fifo.init t₀).replay log = some f ∧ Coupled st f ∧ Q st.nclients f log := by
  obtain ⟨f, g, hlog, hcoup, hQ⟩ := h.invariant (fun _ log e => log ++ [e]) [] h₀ hcreate happly
  have hg : g = log := Runs.replay_history (P := fun x log => x.2 = log) rfl
    (fun {a a' log e} hP happly => by
      obtain ⟨f', -, rfl⟩ := Option.map_eq_some_iff.mp happly
      show a.2 ++ [e] = log ++ [e]
      rw [hP]) hlog
  exact ⟨f, Fifo.replayWith_some (x := (Fifo.init t₀, [])) |>.mpr ⟨g, hlog⟩, hcoup, hg ▸ hQ⟩

end SmpHashTable
