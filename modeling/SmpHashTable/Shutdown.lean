import SmpHashTable.FlowControl

/-!
# Stopping the servers

`stop_hash_table_servers` flushes every local buffer and then sets `quitting`.  A server thread reads
`quitting` at the top of its loop and makes one more pass, in which it takes one slot of every client.
So it leaves behind what the clients had in further slots: the last pass completes the queries exactly
when no client has more than one slot filled.
-/

namespace SmpHashTable

/-- The number of slots that hold a batch. -/
def InputBuffer.occupied (b : InputBuffer) : ℕ := b.slotWords.countP fun ws => ws ≠ []

/-- Clients make no calls while the servers are stopped. -/
def Act.Shutdown : Act → Prop
  | .stopper => True
  | .server _ _ => True
  | _ => False

instance Act.decidableShutdown : (a : Act) → Decidable a.Shutdown
  | .stopper => isTrue trivial
  | .server _ _ => isTrue trivial
  | .create _ _ => isFalse id
  | .start _ => isFalse id
  | .stop => isFalse id
  | .call _ _ => isFalse id
  | .client _ => isFalse id

/-- The states and logs of the runs of the stopping thread and the servers from `st`. -/
def Sys.Shutdown (st : Sys) : Sys → List Event → Prop :=
  Runs.Reach Sys.step (fun _ _ a => a.Shutdown) st

/-- Server `s` is about to read `quitting`, and it is set. -/
def Sys.ReadsQuitting (st : Sys) (s : ℕ) : Prop := (st.server s).pc = .top ∧ st.quitting = true

/-! ### The flag a server reads -/

section

variable {st st' : Sys} {s : ℕ} {o : Oracle} {evs : List Event}

/-- A server reads `quitting` at the top of its loop only, and returns only if it was set. -/
theorem serverStep_flag (hstep : serverStep st s o = .ok (st', evs)) :
    (st'.server s).quitting = (if (st.server s).pc = .top then st.quitting else (st.server s).quitting) ∧
      ((st'.server s).pc = .returned → (st'.server s).quitting = true) := by
  cases hpc : (st.server s).pc with
  | top =>
      simp only [serverStep, hpc] at hstep
      cases hstep
      simp [Sys.setServer]
  | clients =>
      simp only [serverStep, hpc] at hstep
      cases hstep
      simp [Sys.setServer]
  | poll i n =>
      simp only [serverStep, hpc] at hstep
      cases hstep
      by_cases hi : i < n
      · simp [Sys.setServer, hi]
      · by_cases hq : (st.server s).quitting = true
        · simp [Sys.setServer, hq]
        · simp [Sys.setServer, hi, hq]
  | read i n pc =>
      simp only [serverStep, hpc] at hstep
      split at hstep
      · cases hstep
        simp [Sys.setServer]
      · next b buf count heq =>
        cases hstep
        by_cases h0 : count = 0
        · simp [Sys.setServer, h0]
        · simp [Sys.setServer, h0]
  | exec i n count k j =>
      simp only [serverStep, hpc] at hstep
      split at hstep
      · split at hstep
        · cases hstep
        · obtain ⟨⟨t, resp, removed⟩, hop, hret⟩ := Outcome.bind_ok.mp hstep
          cases hret
          cases resp with
          | none => simp [Sys.setServer]
          | some v => simp [Sys.setServer]
      · split at hstep
        · cases hstep
          simp [Sys.setServer]
        · cases hstep
  | write i n j m =>
      simp only [serverStep, hpc] at hstep
      split at hstep
      · cases hstep
        simp [Sys.setServer]
      · cases hstep
        simp [Sys.setServer]
  | returned =>
      simp only [serverStep, hpc] at hstep
      cases hstep

/-! ### The stopping thread -/

/-- The local buffers the stopping thread has been through. -/
def StopPc.Past (n : ℕ) : StopPc → ℕ → ℕ → Prop
  | .idle, _, _ => False
  | .loop i k, c, s => s < i ∨ s = i ∧ c < k
  | .flush i k _, c, s => s < i ∨ s = i ∧ c < k
  | .quit, _, s => s < n
  | .join _, _, s => s < n

/-- What holds while the servers run and while they are stopped. -/
structure Stopping (st : Sys) : Prop where
  /-- Without a thread waiting for them, servers run only while `quitting` is clear. -/
  running : st.quitting = true → (∀ i, st.stopper ≠ .join i) →
    ∀ s < st.nservers, (st.server s).pc = .returned
  joined : ∀ i, st.stopper = .join i → st.quitting = true ∧
    ∀ s < i, s < st.nservers → (st.server s).pc = .returned
  flushed : ∀ c s, c < st.nclients → st.stopper.Past st.nservers c s →
    ((st.client c).box s).inb.localIndex = 0
  flag : ∀ s < st.nservers, (st.server s).quitting = true → st.quitting = true

theorem stopping_init (t : Table) : Stopping (Sys.init t) :=
  ⟨by simp [Sys.init], by simp [Sys.init], fun _ _ _ h => h.elim, by simp [Sys.init]⟩

/-- A server that has not returned can only run on while `quitting` is clear or it is waited for. -/
theorem Stopping.serverStep (h : Stopping st) (hs : s < st.nservers)
    (hstep : serverStep st s o = .ok (st', evs)) : Stopping st' := by
  obtain ⟨hf, -⟩ := serverStep_frame hstep
  have hrun : (st.server s).pc ≠ .returned := by
    intro hpc
    simp only [SmpHashTable.serverStep, hpc] at hstep
    cases hstep
  refine ⟨?_, ?_, ?_, ?_⟩
  · intro hq hno
    rw [hf.quitting] at hq
    rw [hf.stopper] at hno
    exact absurd (h.running hq hno s hs) hrun
  · intro i hi
    rw [hf.stopper] at hi
    obtain ⟨hq, hret⟩ := h.joined i hi
    refine ⟨hf.quitting.trans hq, ?_⟩
    intro s' hlt hs'
    rw [hf.nservers] at hs'
    have hne : s' ≠ s := by
      rintro rfl
      exact hrun (hret s' hlt hs')
    rw [hf.server s' hne]
    exact hret s' hlt hs'
  · intro c s' hc hpast
    rw [hf.nclients] at hc
    rw [hf.stopper, hf.nservers] at hpast
    have hidx := h.flushed c s' hc hpast
    by_cases hne : s' = s
    · subst hne
      rw [hf.localIndex]
      exact hidx
    · rw [hf.box c s' hne]
      exact hidx
  · intro s' hs' hq
    rw [hf.nservers] at hs'
    rw [hf.quitting]
    by_cases hne : s' = s
    · subst hne
      rw [(serverStep_flag hstep).1] at hq
      split at hq
      · exact hq
      · exact h.flag s' hs' hq
    · rw [hf.server s' hne] at hq
      exact h.flag s' hs' hq

/-- The stopping thread flushes the local buffers one after the other before it sets `quitting`. -/
theorem Stopping.stopperStep {f : Fifo} (h : Stopping st) (hc : Coupled st f)
    (hstep : stopperStep st = .ok st') : Stopping st' := by
  unfold SmpHashTable.stopperStep at hstep
  cases hpc : st.stopper with
  | idle =>
      rw [hpc] at hstep
      cases hstep
  | loop i k =>
      have hrun := h.running
      have hflushed := h.flushed
      simp only [hpc] at hstep hrun hflushed
      cases hstep
      refine ⟨fun hq _ => hrun hq (by simp), ?_, ?_, h.flag⟩
      · intro i' hi'
        by_cases hi : i < st.nservers
        · by_cases hk : k < st.nclients
          · simp [hi, hk] at hi'
          · simp [hi, hk] at hi'
        · simp [hi] at hi'
      · intro c s hcl hpast
        refine hflushed c s hcl ?_
        have hcl' : c < st.nclients := hcl
        by_cases hi : i < st.nservers
        · by_cases hk : k < st.nclients
          · simpa [hi, hk, StopPc.Past] using hpast
          · simp only [hi, hk, if_true, if_false, StopPc.Past] at hpast
            show s < i ∨ s = i ∧ c < k
            omega
        · simp only [hi, if_false, StopPc.Past] at hpast
          have hs : s < st.nservers := hpast
          show s < i ∨ s = i ∧ c < k
          omega
  | flush i k pc =>
      have hrun := h.running
      have hflushed := h.flushed
      simp only [hpc] at hstep hrun hflushed
      -- buffers other than the one being flushed stay as they are
      have hother : ∀ b c s, ¬ (c = k ∧ s = i) →
          (Function.update st.client k ((st.client k).setIn i b) c).box s = (st.client c).box s := by
        intro b c s hne
        by_cases hck : c = k
        · subst hck
          have hsi : s ≠ i := fun hs => hne ⟨rfl, hs⟩
          simp [Client.setIn, hsi]
        · simp [hck]
      split at hstep
      · next b pc' heq =>
        cases hstep
        refine ⟨fun hq _ => hrun hq (by simp), by simp, ?_, h.flag⟩
        intro c s hcl hpast
        have hpast' : s < i ∨ s = i ∧ c < k := hpast
        rw [hother b c s (by omega)]
        exact hflushed c s hcl hpast'
      · next b heq =>
        cases hstep
        refine ⟨fun hq _ => hrun hq (by simp), by simp, ?_, h.flag⟩
        intro c s hcl hpast
        have hpast' : s < i ∨ s = i ∧ c < k + 1 := hpast
        by_cases hne : c = k ∧ s = i
        · obtain ⟨rfl, rfl⟩ := hne
          obtain ⟨t, -, hbox⟩ := (hc.client c).box s
          have hfl : st.flushing c s = some pc := by simp [Sys.flushing, hpc]
          rw [hfl] at hbox
          have hf := hbox.flushStep
          rw [heq] at hf
          simpa [Client.setIn] using hf.2
        · rw [hother b c s hne]
          refine hflushed c s hcl ?_
          show s < i ∨ s = i ∧ c < k
          omega
  | quit =>
      have hflushed := h.flushed
      simp only [hpc] at hstep hflushed
      cases hstep
      refine ⟨by simp, ?_, hflushed, fun _ _ _ => rfl⟩
      intro i hi
      cases hi
      exact ⟨rfl, by simp⟩
  | join i =>
      obtain ⟨hq, hret⟩ := h.joined i hpc
      have hflushed := h.flushed
      simp only [hpc] at hstep hflushed
      split at hstep
      · split at hstep
        · next hri =>
          cases hstep
          refine ⟨by simp, ?_, hflushed, h.flag⟩
          intro i' hi'
          cases hi'
          refine ⟨hq, ?_⟩
          intro s hs hsn
          rcases Nat.lt_succ_iff_lt_or_eq.mp hs with hlt | rfl
          · exact hret s hlt hsn
          · exact hri
        · cases hstep
      · next hi =>
        cases hstep
        refine ⟨?_, by simp, fun _ _ _ hp => hp.elim, h.flag⟩
        intro _ _ s hs
        have hs' : s < st.nservers := hs
        exact hret s (by omega) hs'

/-- Steps that do not touch the servers, while nobody stops them. -/
theorem Stopping.congr (h : Stopping st) (hn : st'.nservers = st.nservers)
    (hq : st'.quitting = st.quitting) (hserver : st'.server = st.server)
    (hidle : st.stopper = .idle) (hpast : ∀ c s, ¬ st'.stopper.Past st'.nservers c s)
    (hno : ∀ i, st'.stopper ≠ .join i) : Stopping st' := by
  refine ⟨?_, ?_, ?_, ?_⟩
  · intro hquit _ s hs
    rw [hserver]
    exact h.running (hq ▸ hquit) (by simp [hidle]) s (hn ▸ hs)
  · intro i hi
    exact absurd hi (hno i)
  · intro c s _ hp
    exact absurd hp (hpast c s)
  · intro s hs hflag
    rw [hserver] at hflag
    rw [hq]
    exact h.flag s (hn ▸ hs) hflag

theorem Stopping.step {f : Fifo} (h : Stopping st) (hc : Coupled st f) {a : Act} (hok : a.Ok st)
    (hstep : st.step a = .ok (st', evs)) : Stopping st' := by
  have hquiet : st.stopper = .idle → st'.stopper = .idle → st'.nservers = st.nservers →
      st'.quitting = st.quitting → st'.server = st.server → Stopping st' := by
    intro hidle hidle' hn hq hserver
    refine h.congr hn hq hserver hidle ?_ ?_
    · intro c s hp
      rw [hidle'] at hp
      exact hp
    · intro i hi
      rw [hidle'] at hi
      cases hi
  cases a with
  | create values servers =>
      obtain ⟨st₁, h₁, heq⟩ := Outcome.map_ok.mp hstep
      cases heq
      unfold createClient at h₁
      split at h₁
      · split at h₁
        · cases h₁
          exact hquiet hok hok rfl rfl rfl
        · cases h₁
      · cases h₁
  | start stack =>
      obtain ⟨st₁, h₁, heq⟩ := Outcome.map_ok.mp hstep
      cases heq
      unfold startServers at h₁
      split at h₁
      · next hcond =>
        cases h₁
        refine ⟨by simp, ?_, ?_, ?_⟩
        · intro i hi
          rw [hcond.1] at hi
          cases hi
        · intro c s _ hp
          rw [hcond.1] at hp
          exact hp.elim
        · intro s hs hflag
          have hs' : s < st.nservers := hs
          simp [hs'] at hflag
      · cases h₁
  | stop =>
      simp only [Sys.step] at hstep
      split at hstep
      · next hidle =>
        cases hstep
        refine h.congr rfl rfl rfl hidle ?_ (by simp)
        intro c s hp
        have hp' : s < 0 ∨ s = 0 ∧ c < 0 := hp
        omega
      · cases hstep
  | stopper =>
      obtain ⟨st₁, h₁, heq⟩ := Outcome.map_ok.mp hstep
      cases heq
      exact h.stopperStep hc h₁
  | call c k =>
      simp only [Sys.step] at hstep
      split at hstep
      · split at hstep
        · obtain ⟨⟨cl, evs'⟩, -, heq⟩ := Outcome.map_ok.mp hstep
          cases heq
          exact hquiet hok.1 hok.1 rfl rfl rfl
        · cases hstep
      · cases hstep
  | client c =>
      obtain ⟨⟨cl, evs'⟩, h₁, heq⟩ := Outcome.map_ok.mp hstep
      cases heq
      have hidle : st.stopper = .idle := by
        by_contra hne
        have hpc := hc.stopping hne c
        simp only [clientStep, hpc] at h₁
        cases h₁
      exact hquiet hidle hidle rfl rfl rfl
  | server s o =>
      simp only [Sys.step] at hstep
      split at hstep
      · next hs => exact h.serverStep hs hstep
      · cases hstep

end

theorem reach_stopping {t : Table} {st : Sys} {log : List Event} (h : Sys.Reach (Sys.init t) st log) :
    Stopping st ∧ ∃ f, Coupled st f := by
  refine Runs.Reach.invariant (P := fun st _ => Stopping st ∧ ∃ f, Coupled st f)
    ⟨stopping_init t, _, coupled_init t⟩ ?_ h
  rintro st st' log evs a ⟨hs, f, hc⟩ hok hstep
  obtain ⟨f', -, hc'⟩ := hc.step hok hstep
  exact ⟨hs.step hc hok hstep, f', hc'⟩

/-! ### Occupied slots -/

section

variable {b : Box} {turn : Turn} {fl : Option FlushPc} {todo : List Msg} {ans : List ℕ}

theorem InInv.occupied_eq {b : InputBuffer} {bs : List (List ℕ)} {loc : List ℕ}
    (h : InInv b fl bs loc) : b.occupied = bs.length := by
  have hbs : ∀ ws ∈ bs.map Ring.visible, ws ≠ [] := by
    intro ws hws
    obtain ⟨w, hw, rfl⟩ := List.mem_map.mp hws
    obtain ⟨i, hi⟩ := List.mem_iff_getElem?.mp hw
    have hholds := h.ring.full i w hi
    cases w with
    | nil => exact absurd hholds.pos (by simp)
    | cons v w =>
        have hv : v ≠ 0 := by
          have h0 := (Ring.loaded_cons.mp hholds.words).1
          have hfirst := hholds.first
          rw [h0] at hfirst
          exact hfirst
        rw [Ring.visible_cons w hv]
        simp
  rw [InputBuffer.occupied, h.slotWords_eq, List.countP_append, List.countP_replicate,
    List.countP_eq_length.mpr (fun ws hws => by simpa using hbs ws hws)]
  simp

/-- A client's slots after the server has polled it. -/
theorem BoxInv.occupied_read {pc : InpbReadPc} {buf buf' : ℕ → ℕ} {b' : InputBuffer} {count : ℕ}
    (h : BoxInv b (.read pc buf) fl todo ans)
    (hret : inpbReadStep b.inb buf pc = (b', buf', .ret count)) :
    b'.occupied = b.inb.occupied - 1 := by
  obtain ⟨x, hx, rfl, rfl⟩ := h
  have hstep := hx.inb.readStep hx.turn.2.2.2
  rw [hret] at hstep
  rcases hstep with ⟨-, rfl, hnil⟩ | ⟨-, w, bs, hbs, hinb, -⟩
  · rw [hx.inb.occupied_eq, hnil]
    rfl
  · rw [hx.inb.occupied_eq, hinb.occupied_eq, hbs]
    rfl

/-- With nothing in the local buffer and no batch under way, all messages are in the slots. -/
theorem BoxInv.todo_nil_iff (h : BoxInv b .away fl todo ans) (hidx : b.inb.localIndex = 0) :
    todo = [] ↔ b.inb.occupied = 0 := by
  obtain ⟨x, hx, rfl, rfl⟩ := h
  have hloc : x.loc = [] := by
    have hlen := hx.inb.index
    rw [hidx] at hlen
    exact enc_eq_nil.mp (List.length_eq_zero_iff.mp hlen.symm)
  rw [hx.inb.occupied_eq, List.length_map, Spread.todo, hx.turn.1, hloc]
  simp only [List.nil_append, List.append_nil, List.length_eq_zero_iff]
  constructor
  · intro hflat
    cases hslots : x.slots with
    | nil => rfl
    | cons ms slots =>
        -- a slot that holds a batch holds a message
        have hhead := hx.inb.ring
        rw [hslots, List.map_cons] at hhead
        have hms : ms = [] := List.flatten_eq_nil_iff.mp hflat ms (by rw [hslots]; exact List.mem_cons_self)
        have hpos := hhead.head.pos
        rw [hms] at hpos
        exact absurd hpos (by simp [enc])
  · intro hslots
    rw [hslots]
    rfl

end

/-! ### The last pass -/

/-- The number of clients a pass is through with. -/
def ServerPc.served (n : ℕ) : ServerPc → ℕ
  | .top => 0
  | .clients => 0
  | .poll i _ => i
  | .read i _ _ => i
  | .exec i _ _ _ _ => i + 1
  | .write i _ _ _ => i + 1
  | .returned => n

/-- The pass is over all clients. -/
def ServerPc.Over (n : ℕ) : ServerPc → Prop
  | .poll _ k => k = n
  | .read i k _ => i < k ∧ k = n
  | .exec _ k _ _ _ => k = n
  | .write _ k _ _ => k = n
  | _ => True

/-- What is left of client `c`'s slots when the first `k` clients have been polled. -/
def leftOver (slots : ℕ → ℕ) (k c : ℕ) : ℕ := if c < k then slots c - 1 else slots c

/-- The pass of server `s` that began with `slots c` occupied slots for client `c`. -/
structure LastPass (s : ℕ) (slots : ℕ → ℕ) (st : Sys) : Prop where
  quitting : st.quitting = true
  flag : (st.server s).pc = .top ∨ (st.server s).quitting = true
  past : (st.server s).pc.Over st.nclients
  occupied : ∀ c < st.nclients, ((st.client c).box s).inb.occupied
    = leftOver slots ((st.server s).pc.served st.nclients) c
  joining : st.stopper = .idle ∨ ∃ i, st.stopper = .join i
  idle : ∀ c, (st.client c).pc = .idle
  flushed : ∀ c < st.nclients, ((st.client c).box s).inb.localIndex = 0

section

variable {st st' : Sys} {s : ℕ} {slots : ℕ → ℕ} {f : Fifo} {evs : List Event}

/-- The pass as far as the server's place and the slots go. -/
theorem LastPass.at {o : Oracle} (h : LastPass s slots st) (hstep : serverStep st s o = .ok (st', evs))
    (hflag : (st'.server s).quitting = true) (hover : (st'.server s).pc.Over st.nclients)
    (hocc : ∀ c < st.nclients, ((st'.client c).box s).inb.occupied
      = leftOver slots ((st'.server s).pc.served st.nclients) c) :
    LastPass s slots st' := by
  obtain ⟨hf, -⟩ := serverStep_frame hstep
  refine ⟨hf.quitting.trans h.quitting, Or.inr hflag, ?_, ?_, ?_, ?_, ?_⟩
  · rw [hf.nclients]
    exact hover
  · rw [hf.nclients]
    exact hocc
  · rw [hf.stopper]
    exact h.joining
  · intro c
    rw [hf.pc]
    exact h.idle c
  · intro c hc
    rw [hf.localIndex]
    exact h.flushed c (hf.nclients ▸ hc)

theorem LastPass.serverStep {o : Oracle} (h : LastPass s slots st) (hc : Coupled st f)
    (hstep : serverStep st s o = .ok (st', evs)) : LastPass s slots st' := by
  obtain ⟨hflag, hret⟩ := serverStep_flag hstep
  have hquit : (st'.server s).quitting = true := by
    rw [hflag]
    split
    · exact h.quitting
    · next hne => exact h.flag.resolve_left hne
  have hnew := h.at hstep hquit
  have hover := h.past
  have hocc := h.occupied
  cases hpc : (st.server s).pc with
  | top =>
      rw [hpc] at hocc
      simp only [SmpHashTable.serverStep, hpc] at hstep
      cases hstep
      exact hnew (by simp [Sys.setServer, ServerPc.Over])
        (by simpa [Sys.setServer, ServerPc.served] using hocc)
  | clients =>
      rw [hpc] at hocc
      simp only [SmpHashTable.serverStep, hpc] at hstep
      cases hstep
      exact hnew (by simp [Sys.setServer, ServerPc.Over])
        (by simpa [Sys.setServer, ServerPc.served] using hocc)
  | poll i n =>
      have hq : (st.server s).quitting = true := h.flag.resolve_left (by simp [hpc])
      rw [hpc] at hover hocc
      obtain rfl : n = st.nclients := hover
      simp only [SmpHashTable.serverStep, hpc] at hstep
      cases hstep
      by_cases hi : i < st.nclients
      · exact hnew (by simp [Sys.setServer, hi, ServerPc.Over])
          (by simpa [Sys.setServer, hi, ServerPc.served] using hocc)
      · refine hnew (by simp [Sys.setServer, hi, hq, ServerPc.Over]) ?_
        intro c hcl
        have hold := hocc c hcl
        rw [ServerPc.served, leftOver, if_pos (by omega)] at hold
        simpa [Sys.setServer, hi, hq, ServerPc.served, leftOver, hcl] using hold
  | read i n pc =>
      rw [hpc] at hover hocc
      obtain ⟨hi, rfl⟩ := hover
      simp only [SmpHashTable.serverStep, hpc] at hstep
      split at hstep
      · cases hstep
        exact hnew (by simp [Sys.setServer, hi, ServerPc.Over])
          (by simpa [Sys.setServer, ServerPc.served] using hocc)
      · next b buf count heq =>
        cases hstep
        obtain ⟨t, -, hbox⟩ := (hc.client i).box s
        simp only [Server.turn_read hpc, if_true] at hbox
        have hread := hbox.occupied_read heq
        have hown := hocc i hi
        rw [ServerPc.served, leftOver, if_neg (lt_irrefl i)] at hown
        -- the polled client has one slot less, and all others have what they had
        have hslots : ∀ c < st.nclients,
            ((Function.update st.client i ((st.client i).setIn s b) c).box s).inb.occupied
              = leftOver slots (i + 1) c := by
          intro c hcl
          by_cases hci : c = i
          · subst hci
            rw [leftOver, if_pos (Nat.lt_succ_self c)]
            simp [Client.setIn, hread, hown]
          · have hold := hocc c hcl
            rw [ServerPc.served] at hold
            rw [Function.update_of_ne hci, hold, leftOver, leftOver]
            by_cases hlt : c < i
            · rw [if_pos hlt, if_pos (by omega)]
            · rw [if_neg hlt, if_neg (by omega)]
        by_cases h0 : count = 0
        · exact hnew (by simp [Sys.setServer, h0, ServerPc.Over])
            (by simpa [Sys.setServer, Sys.setClient, h0, ServerPc.served] using hslots)
        · exact hnew (by simp [Sys.setServer, h0, ServerPc.Over])
            (by simpa [Sys.setServer, Sys.setClient, h0, ServerPc.served] using hslots)
  | exec i n count k j =>
      rw [hpc] at hover hocc
      obtain rfl : n = st.nclients := hover
      simp only [SmpHashTable.serverStep, hpc] at hstep
      split at hstep
      · split at hstep
        · cases hstep
        · obtain ⟨⟨t, resp, removed⟩, -, hret⟩ := Outcome.bind_ok.mp hstep
          cases hret
          cases resp with
          | none =>
              exact hnew (by simp [Sys.setServer, ServerPc.Over])
                (by simpa [Sys.setServer, ServerPc.served] using hocc)
          | some v =>
              exact hnew (by simp [Sys.setServer, ServerPc.Over])
                (by simpa [Sys.setServer, ServerPc.served] using hocc)
      · split at hstep
        · cases hstep
          exact hnew (by simp [Sys.setServer, ServerPc.Over])
            (by simpa [Sys.setServer, ServerPc.served] using hocc)
        · cases hstep
  | write i n j m =>
      rw [hpc] at hover hocc
      obtain rfl : n = st.nclients := hover
      have hslots : ∀ b : OutputBuffer, ∀ c < st.nclients,
          ((Function.update st.client i ((st.client i).setOut s b) c).box s).inb.occupied
            = leftOver slots (i + 1) c := by
        intro b c hcl
        have hold := hocc c hcl
        rw [ServerPc.served] at hold
        rw [← hold]
        by_cases hci : c = i
        · subst hci
          simp [Client.setOut]
        · simp [hci]
      simp only [SmpHashTable.serverStep, hpc] at hstep
      split at hstep
      · next b m' heq =>
        cases hstep
        exact hnew (by simp [Sys.setServer, ServerPc.Over])
          (by simpa [Sys.setServer, Sys.setClient, ServerPc.served] using hslots b)
      · next b heq =>
        cases hstep
        exact hnew (by simp [Sys.setServer, ServerPc.Over])
          (by simpa [Sys.setServer, Sys.setClient, ServerPc.served] using hslots b)
  | returned =>
      simp only [SmpHashTable.serverStep, hpc] at hstep
      cases hstep

/-- **A step during the last pass of server `s`**, of this server or of any other thread. -/
theorem LastPass.step {a : Act} (h : LastPass s slots st) (hc : Coupled st f) (ha : a.Shutdown)
    (hstep : st.step a = .ok (st', evs)) : LastPass s slots st' := by
  cases a with
  | stopper =>
      obtain ⟨st₁, h₁, heq⟩ := Outcome.map_ok.mp hstep
      cases heq
      unfold stopperStep at h₁
      rcases h.joining with hidle | ⟨i, hi⟩
      · rw [hidle] at h₁
        cases h₁
      · simp only [hi] at h₁
        split at h₁
        · split at h₁
          · cases h₁
            exact ⟨h.quitting, h.flag, h.past, h.occupied, Or.inr ⟨i + 1, rfl⟩, h.idle, h.flushed⟩
          · cases h₁
        · cases h₁
          exact ⟨h.quitting, h.flag, h.past, h.occupied, Or.inl rfl, h.idle, h.flushed⟩
  | server s' o =>
      simp only [Sys.step] at hstep
      split at hstep
      · obtain ⟨hf, -⟩ := serverStep_frame hstep
        by_cases hs : s' = s
        · subst hs
          exact h.serverStep hc hstep
        · have hsrv := hf.server s (Ne.symm hs)
          have hbox : ∀ c, (st'.client c).box s = (st.client c).box s :=
            fun c => hf.box c s (Ne.symm hs)
          refine ⟨hf.quitting.trans h.quitting, by rw [hsrv]; exact h.flag,
            by rw [hsrv, hf.nclients]; exact h.past, ?_, by rw [hf.stopper]; exact h.joining, ?_, ?_⟩
          · intro c hcl
            rw [hsrv, hbox, hf.nclients]
            exact h.occupied c (hf.nclients ▸ hcl)
          · intro c
            rw [hf.pc]
            exact h.idle c
          · intro c hcl
            rw [hbox]
            exact h.flushed c (hf.nclients ▸ hcl)
      · cases hstep
  | create values servers => exact ha.elim
  | start stack => exact ha.elim
  | stop => exact ha.elim
  | call c k => exact ha.elim
  | client c => exact ha.elim

/-- The pass begins when the server reads `quitting`: by then all local buffers are flushed. -/
theorem lastPass_start (h : Stopping st) (hc : Coupled st f) (hs : s < st.nservers)
    (hread : st.ReadsQuitting s) :
    LastPass s (fun c => ((st.client c).box s).inb.occupied) st := by
  obtain ⟨hpc, hq⟩ := hread
  obtain ⟨i, hi⟩ : ∃ i, st.stopper = .join i := by
    by_contra hno
    have hret := h.running hq (fun i hi => hno ⟨i, hi⟩) s hs
    rw [hpc] at hret
    cases hret
  refine ⟨hq, Or.inl hpc, by simp [hpc, ServerPc.Over], ?_, Or.inr ⟨i, hi⟩,
    hc.stopping (by simp [hi]), ?_⟩
  · intro c _
    simp [hpc, ServerPc.served, leftOver]
  · intro c hcl
    refine h.flushed c s hcl ?_
    rw [hi]
    exact hs

end

/-! ### Whole shutdowns -/

section

variable {t : Table} {st st' : Sys} {log log' : List Event} {s : ℕ}

theorem Act.Shutdown.ok {a : Act} (h : a.Shutdown) (st : Sys) : a.Ok st := by
  cases a with
  | stopper => trivial
  | server s o => trivial
  | create values servers => exact h.elim
  | start stack => exact h.elim
  | stop => exact h.elim
  | call c k => exact h.elim
  | client c => exact h.elim

theorem Sys.Reach.shutdown {st₀ : Sys} (h : Sys.Reach st₀ st log) (h' : Sys.Shutdown st st' log') :
    Sys.Reach st₀ st' (log ++ log') :=
  Runs.Reach.trans h (Runs.Reach.mono (fun st _ _ ha => ha.ok st) h')

/-- No client is created and no message issued during a shutdown. -/
theorem Sys.Shutdown.frame (h : Sys.Shutdown st st' log') :
    st'.nclients = st.nclients ∧ st'.nservers = st.nservers ∧ ∀ c s, issued c s log' = [] := by
  refine Runs.Reach.invariant (P := fun st' log => st'.nclients = st.nclients ∧
    st'.nservers = st.nservers ∧ ∀ c s, issued c s log = []) ⟨rfl, rfl, fun _ _ => rfl⟩ ?_ h
  rintro st₁ st₂ log evs a ⟨hn, hns, hlog⟩ ha hstep
  have hnew : st₂.nclients = st₁.nclients ∧ st₂.nservers = st₁.nservers ∧
      ∀ c s, issued c s evs = [] := by
    cases a with
    | stopper =>
        obtain ⟨st₃, h₃, heq⟩ := Outcome.map_ok.mp hstep
        cases heq
        exact ⟨(stopperStep_frame h₃).1, (stopperStep_frame h₃).2.1, fun _ _ => rfl⟩
    | server s o =>
        simp only [Sys.step] at hstep
        split at hstep
        · obtain ⟨hf, hissued⟩ := serverStep_frame hstep
          exact ⟨hf.nclients, hf.nservers, hissued⟩
        · cases hstep
    | create values servers => exact ha.elim
    | start stack => exact ha.elim
    | stop => exact ha.elim
    | call c k => exact ha.elim
    | client c => exact ha.elim
  refine ⟨hnew.1.trans hn, hnew.2.1.trans hns, ?_⟩
  intro c s
  rw [issued_append, hlog, hnew.2.2]
  rfl

theorem Sys.Shutdown.lastPass {slots : ℕ → ℕ} {f : Fifo} (h : Sys.Shutdown st st' log')
    (hpass : LastPass s slots st) (hc : Coupled st f) : LastPass s slots st' := by
  have hinv : LastPass s slots st' ∧ ∃ f, Coupled st' f := by
    refine Runs.Reach.invariant (P := fun st _ => LastPass s slots st ∧ ∃ f, Coupled st f)
      ⟨hpass, f, hc⟩ ?_ h
    rintro st₁ st₂ log evs a ⟨hp, f₁, hc₁⟩ ha hstep
    obtain ⟨f₂, -, hc₂⟩ := hc₁.step (ha.ok st₁) hstep
    exact ⟨hp.step hc₁ ha hstep, f₂, hc₂⟩
  exact hinv.1

/-- Client `c` has nothing left with a server that has returned exactly if it had at most one slot
filled. -/
theorem LastPass.todo_nil_iff {slots : ℕ → ℕ} {f : Fifo} (h : LastPass s slots st) (hc : Coupled st f)
    (hret : (st.server s).pc = .returned) {c : ℕ} (hcl : c < st.nclients) :
    (f.session c).todo s = [] ↔ slots c ≤ 1 := by
  obtain ⟨t, htodo, hbox⟩ := (hc.client c).box s
  have haway : (st.server s).turn c = .away := by simp [Server.turn, hret]
  rw [h.idle c] at htodo
  have hnil : (f.session c).todo s = t := by
    rw [htodo]
    exact List.append_nil t
  have hocc := h.occupied c hcl
  rw [hret, ServerPc.served, leftOver, if_pos hcl] at hocc
  simp only [haway] at hbox
  rw [hnil, hbox.todo_nil_iff (h.flushed c hcl), hocc]
  omega

/-- **From the moment a server reads `quitting`**, whether it completes all queries is decided by
the number of slots occupied then. -/
theorem drained_iff (h : Sys.Reach (Sys.init t) st log) (hs : s < st.nservers)
    (hread : st.ReadsQuitting s) (hrest : Sys.Shutdown st st' log')
    (hret : (st'.server s).pc = .returned) :
    (∀ c, executed c s (log ++ log') = (issued c s log).map Msg.op) ↔
      ∀ c < st.nclients, ((st.client c).box s).inb.occupied ≤ 1 := by
  obtain ⟨hstopping, f, hc⟩ := reach_stopping h
  have hpass := hrest.lastPass (lastPass_start hstopping hc hs hread) hc
  obtain ⟨f', hrun, hc'⟩ := reach_coupled (h.shutdown hrest)
  obtain ⟨hn, -, hissued⟩ := hrest.frame
  -- the messages not executed are those the queues still hold
  have htodo : ∀ c, executed c s (log ++ log') = (issued c s log).map Msg.op ↔
      (f'.session c).todo s = [] := by
    intro c
    have htold := (Fifo.replay_told hrun c).issued_eq s
    rw [issued_append, hissued, List.append_nil] at htold
    rw [htold, List.self_eq_append_right, List.map_eq_nil_iff]
  constructor
  · intro hall c hcl
    exact (hpass.todo_nil_iff hc' hret (hn ▸ hcl)).mp ((htodo c).mp (hall c))
  · intro hall c
    refine (htodo c).mpr ?_
    by_cases hcl : c < st'.nclients
    · exact (hpass.todo_nil_iff hc' hret hcl).mpr (hall c (hn ▸ hcl))
    · rw [(hc'.unborn c (Nat.le_of_not_lt hcl)).2]
      rfl

/-- A server thread that has returned has read `quitting`. -/
theorem exists_readsQuitting (h : Sys.Shutdown st st' log') (hflag : (st.server s).quitting = false)
    (hrun : (st.server s).pc ≠ .returned) (hret : (st'.server s).pc = .returned) :
    ∃ st₁ log₁ log₂, Sys.Shutdown st st₁ log₁ ∧ Sys.Shutdown st₁ st' log₂ ∧ log' = log₁ ++ log₂ ∧
      st₁.ReadsQuitting s := by
  -- the flag is kept from there on, and without it no thread returns
  have hinv : (st'.server s).pc = .returned ∨ (st'.server s).quitting = true →
      ∃ st₁ log₁ log₂, Sys.Shutdown st st₁ log₁ ∧ Sys.Shutdown st₁ st' log₂ ∧ log' = log₁ ++ log₂ ∧
        st₁.ReadsQuitting s := by
    clear hret
    induction h with
    | start =>
        intro hor
        rcases hor with hr | hq
        · exact absurd hr hrun
        · rw [hflag] at hq
          cases hq
    | @step st₂ st₃ log₂ evs a hreach ha hstep ih =>
        intro hor
        by_cases hbefore : (st₂.server s).pc = .returned ∨ (st₂.server s).quitting = true
        · obtain ⟨st₁, log₁, log₂', h₁, h₂, rfl, hread⟩ := ih hbefore
          exact ⟨st₁, log₁, log₂' ++ evs, h₁, Runs.Reach.step h₂ ha hstep, List.append_assoc .., hread⟩
        · -- this is the step that reads it
          refine ⟨st₂, log₂, evs, hreach, Runs.Reach.step .start ha hstep, rfl, ?_⟩
          cases a with
          | stopper =>
              obtain ⟨st₄, h₄, heq⟩ := Outcome.map_ok.mp hstep
              cases heq
              rw [(stopperStep_frame h₄).2.2] at hor
              exact absurd hor hbefore
          | server s' o =>
              simp only [Sys.step] at hstep
              split at hstep
              · by_cases hs : s' = s
                · subst hs
                  obtain ⟨hq, hreturned⟩ := serverStep_flag hstep
                  have hset : (st₃.server s').quitting = true := hor.elim hreturned id
                  rw [hq] at hset
                  split at hset
                  · next htop => exact ⟨htop, hset⟩
                  · exact absurd (Or.inr hset) hbefore
                · rw [(serverStep_frame hstep).1.server s (Ne.symm hs)] at hor
                  exact absurd hor hbefore
              · cases hstep
          | create values servers => exact ha.elim
          | start stack => exact ha.elim
          | stop => exact ha.elim
          | call c k => exact ha.elim
          | client c => exact ha.elim
  exact hinv (Or.inl hret)

/-- **Shutdown.** Every message issued to server `s` before `stop_hash_table_servers` is called has
been executed when its thread returns, exactly if no client has more than one slot filled when the
thread reads `quitting`. -/
theorem shutdown_drains_iff (h : Sys.Reach (Sys.init t) st log) (hidle : st.stopper = .idle)
    (hclients : ∀ c < st.nclients, (st.client c).pc = .idle) (hs : s < st.nservers)
    (hrun : (st.server s).pc ≠ .returned)
    (hstop : Sys.Shutdown { st with stopper := .loop 0 0 } st' log')
    (hret : (st'.server s).pc = .returned) :
    (∀ c, executed c s (log ++ log') = (issued c s log).map Msg.op) ↔
      ∀ st₁ log₁ log₂, Sys.Shutdown { st with stopper := .loop 0 0 } st₁ log₁ →
        Sys.Shutdown st₁ st' log₂ → log' = log₁ ++ log₂ → st₁.ReadsQuitting s →
        ∀ c < st₁.nclients, ((st₁.client c).box s).inb.occupied ≤ 1 := by
  have hreach : Sys.Reach (Sys.init t) { st with stopper := .loop 0 0 } log := by
    have hstep : st.step .stop = .ok ({ st with stopper := .loop 0 0 }, []) := by
      simp [Sys.step, hidle]
    have hr := Runs.Reach.step (a := Act.stop) h hclients hstep
    rwa [List.append_nil] at hr
  have hflag : (st.server s).quitting = false := by
    obtain ⟨hstopping, -⟩ := reach_stopping h
    by_contra hq
    have hquit := hstopping.flag s hs (by simpa using hq)
    exact hrun (hstopping.running hquit (by simp [hidle]) s hs)
  have hdrained : ∀ st₁ log₁ log₂, Sys.Shutdown { st with stopper := .loop 0 0 } st₁ log₁ →
      Sys.Shutdown st₁ st' log₂ → log' = log₁ ++ log₂ → st₁.ReadsQuitting s →
      ((∀ c, executed c s (log ++ log') = (issued c s log).map Msg.op) ↔
        ∀ c < st₁.nclients, ((st₁.client c).box s).inb.occupied ≤ 1) := by
    rintro st₁ log₁ log₂ h₁ h₂ rfl hread
    obtain ⟨-, hns, hissued₁⟩ := h₁.frame
    have hs₁ : s < st₁.nservers := by
      rw [hns]
      exact hs
    have hiff := drained_iff (hreach.shutdown h₁) hs₁ hread h₂ hret
    have hissued : ∀ c, issued c s (log ++ log₁) = issued c s log := by
      intro c
      rw [issued_append, hissued₁, List.append_nil]
    simp only [hissued, List.append_assoc] at hiff
    exact hiff
  constructor
  · intro hall st₁ log₁ log₂ h₁ h₂ hlog hread
    exact (hdrained st₁ log₁ log₂ h₁ h₂ hlog hread).mp hall
  · intro hcond
    obtain ⟨st₁, log₁, log₂, h₁, h₂, hlog, hread⟩ := exists_readsQuitting hstop hflag hrun hret
    exact (hdrained st₁ log₁ log₂ h₁ h₂ hlog hread).mpr (hcond st₁ log₁ log₂ h₁ h₂ hlog hread)

end

/-! ### One client with one or two slots -/

/-- One client of one server makes `n` lookups that fit its local buffer. -/
def lookupRun (n : ℕ) : List Act :=
  [.create (fun _ => 0) (fun _ => 0), .start fun _ _ => 0]
    ++ (List.replicate n (Act.call 0 (.lookup 6) :: List.replicate 3 (.client 0))).flatten

/-- The stopping thread flushes the client's buffer and sets `quitting`, and then the server makes
`n` steps. -/
def stopRun (n : ℕ) : List Act := List.replicate 8 .stopper ++ List.replicate n (.server 0 ⟨[], []⟩)

/-- The state in which `stop_hash_table_servers` is called, and the one in which the run ends. -/
def callStop (before after : List Act) : Option ((Sys × List Event) × (Sys × List Event)) :=
  (Runs.run Sys.step (fun st _ a => a.Ok st) before (Sys.init (emptyTable 4 1024 1 .lru)) []).bind
    fun r => (Runs.run Sys.step (fun _ _ a => a.Shutdown) after { r.1 with stopper := .loop 0 0 } []).map
      fun r' => (r, r')

theorem callStop_some {before after : List Act} {r r' : Sys × List Event}
    (h : callStop before after = some (r, r')) :
    Sys.Reach (Sys.init (emptyTable 4 1024 1 .lru)) r.1 r.2 ∧
      Sys.Shutdown { r.1 with stopper := .loop 0 0 } r'.1 r'.2 := by
  obtain ⟨r₀, h₀, h⟩ := Option.bind_eq_some_iff.mp h
  obtain ⟨r₁, h₁, heq⟩ := Option.map_eq_some_iff.mp h
  cases heq
  exact ⟨Runs.Reach.start.run h₀, Runs.Reach.start.run h₁⟩

/-- What a shutdown is called on and how it ends. -/
def Stopped (st st' : Sys) : Prop :=
  st.stopper = .idle ∧ (∀ c < st.nclients, (st.client c).pc = .idle) ∧ 0 < st.nservers ∧
    (st.server 0).pc ≠ .returned ∧ (st'.server 0).pc = .returned

instance Stopped.decidable (st st' : Sys) : Decidable (Stopped st st') :=
  inferInstanceAs (Decidable (_ ∧ _ ∧ _ ∧ _ ∧ _))

theorem shutdown_drains_one_slot : ∃ st log st' log',
    Sys.Reach (Sys.init (emptyTable 4 1024 1 .lru)) st log ∧ Stopped st st' ∧
      Sys.Shutdown { st with stopper := .loop 0 0 } st' log' ∧ issued 0 0 log = [.lookup 6] ∧
      ((∀ c, executed c 0 (log ++ log') = (issued c 0 log).map Msg.op) ↔
        ∀ st₁ log₁ log₂, Sys.Shutdown { st with stopper := .loop 0 0 } st₁ log₁ →
          Sys.Shutdown st₁ st' log₂ → log' = log₁ ++ log₂ → st₁.ReadsQuitting 0 →
          ∀ c < st₁.nclients, ((st₁.client c).box 0).inb.occupied ≤ 1) := by
  have hval : (callStop (lookupRun 1) (stopRun 12)).any (fun r =>
      decide (Stopped r.1.1 r.2.1 ∧ issued 0 0 r.1.2 = [.lookup 6])) = true := by
    decide +kernel
  obtain ⟨⟨r, r'⟩, hrun, hok⟩ := (Option.any_eq_true _ _).mp hval
  obtain ⟨hstopped, hissued⟩ := of_decide_eq_true hok
  obtain ⟨hreach, hstop⟩ := callStop_some hrun
  obtain ⟨hidle, hclients, hs, hrunning, hret⟩ := hstopped
  exact ⟨r.1, r.2, r'.1, r'.2, hreach, ⟨hidle, hclients, hs, hrunning, hret⟩, hstop, hissued,
    shutdown_drains_iff hreach hidle hclients hs hrunning hstop hret⟩

theorem shutdown_leaves_lookup : ∃ st log st' log',
    Sys.Reach (Sys.init (emptyTable 4 1024 1 .lru)) st log ∧ Stopped st st' ∧
      Sys.Shutdown { st with stopper := .loop 0 0 } st' log' ∧
      executed 0 0 (log ++ log') ≠ (issued 0 0 log).map Msg.op := by
  have hval : (callStop (lookupRun 8 ++ .call 0 (.lookup 7) :: List.replicate 14 (.client 0))
      (stopRun 40)).any (fun r => decide (Stopped r.1.1 r.2.1 ∧
        executed 0 0 (r.1.2 ++ r.2.2) ≠ (issued 0 0 r.1.2).map Msg.op)) = true := by
    decide +kernel
  obtain ⟨⟨r, r'⟩, hrun, hok⟩ := (Option.any_eq_true _ _).mp hval
  obtain ⟨hstopped, hne⟩ := of_decide_eq_true hok
  obtain ⟨hreach, hstop⟩ := callStop_some hrun
  exact ⟨r.1, r.2, r'.1, r'.2, hreach, hstopped, hstop, hne⟩

end SmpHashTable
