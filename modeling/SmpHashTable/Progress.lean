import SmpHashTable.Waiting

/-!
# No stuck state

A running server that has a slot of a client to read gets to it after a number of its own steps that
depends on where it stands in its loop and on nothing the other threads do.  So a client that waits is
never left waiting: the response is there, or the server has the batch in hand, or it reads it soon.
-/

namespace SmpHashTable

/-- The server threads were started, and nobody has told them to quit. -/
def Sys.Running (st : Sys) : Prop :=
  st.quitting = false ∧ 0 < st.nservers ∧ ∀ s < st.nservers, (st.server s).pc ≠ .returned

instance (st : Sys) : Decidable st.Running := inferInstanceAs (Decidable (_ ∧ _ ∧ _))

/-! ### How far a server is from a slot -/

section

variable {st st' : Sys} {evs : List Event}

/-- A bound for the steps of `inpb_read` and what follows it for the same client. -/
def InpbReadPc.left : InpbReadPc → ℕ
  | .test count => 4 * (INPB_SIZE - count) + 2 * count + 4
  | .copy count => 4 * (INPB_SIZE - (count + 1)) + 2 * count + 7
  | .clear count => 2 * count + 3

/-- The same for a visit to a client at any place. -/
def ServerPc.left : ServerPc → ℕ
  | .read _ _ pc => pc.left
  | .exec _ _ count k j => 2 * (count - k) + j + 2
  | .write _ _ j m => j - m + 1
  | _ => 0

/-- A bound for a whole visit, its first step included. -/
def visitSteps : ℕ := 4 * INPB_SIZE + 5

/-- A bound for the steps from the top of the main loop to the read of the slot of client `c`. -/
def passSteps (c : ℕ) : ℕ := visitSteps * (c + 1) + 2

/-- A bound for the steps from the visit to client `i` in a pass over `n` clients. -/
def pollSteps (c i n : ℕ) : ℕ :=
  if i ≤ c ∧ c < n then visitSteps * (c - i + 1) else visitSteps * (n - i) + 1 + passSteps c

/-- A bound for the steps a server takes until it reads the slot of client `c`. -/
def ServerPc.distance (c : ℕ) : ServerPc → ℕ
  | .top => passSteps c
  | .clients => passSteps c - 1
  | .poll i n => pollSteps c i n
  | .read i n pc => if i = c then pc.left else pc.left + pollSteps c (i + 1) n
  | .exec i n count k j => (ServerPc.exec i n count k j).left + pollSteps c (i + 1) n
  | .write i n j m => (ServerPc.write i n j m).left + pollSteps c (i + 1) n
  | .returned => 0

theorem inpbReadStep_left (b : InputBuffer) (buf : ℕ → ℕ) (pc : InpbReadPc) :
    match inpbReadStep b buf pc with
    | (_, _, .goto pc') => pc'.left < pc.left
    | (_, _, .ret count) => 2 * count + 2 < pc.left ∧ (b.Filled → pc = .clear count) := by
  cases pc with
  | test count =>
      by_cases htest : count < INPB_SIZE ∧ b.data b.dataRd count ≠ 0
      · have hlt := htest.1
        simp only [inpbReadStep, if_pos htest, InpbReadPc.left]
        omega
      · simp only [inpbReadStep, if_neg htest]
        by_cases h0 : count = 0
        · subst h0
          rw [if_neg (by simp)]
          refine ⟨by decide, fun hfilled => absurd ⟨by decide, hfilled⟩ htest⟩
        · rw [if_pos h0]
          simp only [InpbReadPc.left]
          omega
  | copy count =>
      simp only [inpbReadStep, InpbReadPc.left]
      omega
  | clear count => exact ⟨by simp [InpbReadPc.left], fun _ => rfl⟩

/-- Where a step of server `s` leads. -/
theorem serverStep_next {s : ℕ} {o : Oracle} (hstep : serverStep st s o = .ok (st', evs)) :
    match (st.server s).pc with
    | .top => (st'.server s).pc = .clients
    | .clients => (st'.server s).pc = .poll 0 st.nclients
    | .poll i n => (st'.server s).pc =
        if i < n then .read i n (.test 0) else if (st.server s).quitting then .returned else .top
    | .read i n pc => (∃ pc', (st'.server s).pc = .read i n pc' ∧ pc'.left < pc.left) ∨
        ∃ count, (((st.client i).box s).inb.Filled → pc = .clear count) ∧ 2 * count + 2 < pc.left ∧
          ((st'.server s).pc = .poll (i + 1) n ∨ (st'.server s).pc = .exec i n count 0 0)
    | .exec i n count k j => (∃ w j', 0 < w ∧ j' ≤ j + 1 ∧ k < count ∧
          (st'.server s).pc = .exec i n count (k + w) j') ∨ (st'.server s).pc = .write i n j 0
    | .write i n j m => (m < j ∧ (st'.server s).pc = .write i n j (m + 1)) ∨
        (j ≤ m ∧ (st'.server s).pc = .poll (i + 1) n)
    | .returned => False := by
  cases hpc : (st.server s).pc with
  | top =>
      simp only [serverStep, hpc] at hstep
      cases hstep
      simp [Sys.setServer]
  | clients =>
      simp only [serverStep, hpc] at hstep
      cases hstep
      simp [Sys.setServer]
  | poll i n =>
      simp only [serverStep, hpc] at hstep
      cases hstep
      simp [Sys.setServer]
  | read i n pc =>
      have hleft := inpbReadStep_left ((st.client i).box s).inb (st.server s).localbuf pc
      simp only [serverStep, hpc] at hstep
      split at hstep
      · next b buf pc' heq =>
        cases hstep
        rw [heq] at hleft
        exact Or.inl ⟨pc', by simp [Sys.setServer], hleft⟩
      · next b buf count heq =>
        cases hstep
        rw [heq] at hleft
        refine Or.inr ⟨count, hleft.2, hleft.1, ?_⟩
        by_cases h0 : count = 0
        · exact Or.inl (by simp [Sys.setServer, h0])
        · exact Or.inr (by simp [Sys.setServer, h0])
  | exec i n count k j =>
      simp only [serverStep, hpc] at hstep
      split at hstep
      · next hk =>
        split at hstep
        · cases hstep
        · next op w hdec =>
          obtain ⟨⟨t, resp, removed⟩, hop, hret⟩ := Outcome.bind_ok.mp hstep
          cases hret
          have hw : 0 < w := decodeAt_pos hdec
          cases resp with
          | none => exact Or.inl ⟨w, j, hw, Nat.le_succ j, hk, by simp [Sys.setServer]⟩
          | some v => exact Or.inl ⟨w, j + 1, hw, le_rfl, hk, by simp [Sys.setServer]⟩
      · split at hstep
        · cases hstep
          exact Or.inr (by simp [Sys.setServer])
        · cases hstep
  | write i n j m =>
      simp only [serverStep, hpc] at hstep
      by_cases hm : m < j
      · simp only [outbWriteStep, if_pos hm] at hstep
        cases hstep
        exact Or.inl ⟨hm, by simp [Sys.setServer]⟩
      · simp only [outbWriteStep, if_neg hm] at hstep
        cases hstep
        exact Or.inr ⟨Nat.le_of_not_lt hm, by simp [Sys.setServer]⟩
  | returned =>
      simp only [serverStep, hpc] at hstep
      cases hstep

theorem pollSteps_succ {c i n : ℕ} (hi : i < n) (hne : i ≠ c) :
    pollSteps c (i + 1) n + visitSteps = pollSteps c i n := by
  have hvisit : visitSteps = 37 := rfl
  unfold pollSteps
  by_cases hle : i ≤ c ∧ c < n
  · rw [if_pos hle, if_pos ⟨by omega, hle.2⟩, hvisit]
    omega
  · rw [if_neg hle, if_neg fun h => hle ⟨by omega, h.2⟩, hvisit]
    omega

theorem pollSteps_self {c n : ℕ} (h : c < n) : pollSteps c c n = visitSteps := by
  simp [pollSteps, h]

theorem pollSteps_end {c i n : ℕ} (h : ¬ i < n) : passSteps c < pollSteps c i n := by
  rw [pollSteps, if_neg (by omega)]
  omega

/-- **Every step brings a running server nearer to the slot of a client** that has one to read, until
it frees that slot. -/
theorem distance_serverStep {c s : ℕ} {o : Oracle} (hstep : serverStep st s o = .ok (st', evs))
    (hc : c < st.nclients) (hflag : (st.server s).quitting = false)
    (hfilled : ((st.client c).box s).inb.Filled)
    (hno : ∀ n count, (st.server s).pc ≠ .read c n (.clear count)) :
    (st'.server s).pc.distance c < (st.server s).pc.distance c := by
  have hnext := serverStep_next hstep
  have htest : (InpbReadPc.test 0).left < visitSteps := by decide
  cases hpc : (st.server s).pc with
  | top =>
      rw [hpc] at hnext
      rw [hnext]
      show passSteps c - 1 < passSteps c
      simp only [passSteps]
      omega
  | clients =>
      rw [hpc] at hnext
      rw [hnext]
      show pollSteps c 0 st.nclients < passSteps c - 1
      rw [pollSteps, if_pos ⟨Nat.zero_le c, hc⟩]
      simp [passSteps]
  | poll i n =>
      rw [hpc] at hnext
      simp only [hflag] at hnext
      by_cases hi : i < n
      · rw [hnext, if_pos hi]
        show (if i = c then _ else _) < pollSteps c i n
        by_cases heq : i = c
        · rw [if_pos heq, heq, pollSteps_self (heq ▸ hi)]
          exact htest
        · rw [if_neg heq, ← pollSteps_succ hi heq]
          omega
      · rw [hnext, if_neg hi]
        exact pollSteps_end hi
  | read i n pc =>
      rw [hpc] at hnext
      rcases hnext with ⟨pc', hpc', hlt⟩ | ⟨count, hclear, hlt, hpc'⟩
      · rw [hpc']
        by_cases heq : i = c
        · simpa [ServerPc.distance, heq] using hlt
        · simpa [ServerPc.distance, heq] using hlt
      · -- `inpb_read` returns, so this is another client
        have heq : i ≠ c := by
          rintro rfl
          exact hno n count (by rw [hpc, hclear hfilled])
        show _ < if i = c then _ else _
        rw [if_neg heq]
        rcases hpc' with hpc' | hpc'
        · rw [hpc']
          show pollSteps c (i + 1) n < _
          omega
        · rw [hpc']
          show 2 * (count - 0) + 0 + 2 + pollSteps c (i + 1) n < _
          omega
  | exec i n count k j =>
      rw [hpc] at hnext
      rcases hnext with ⟨w, j', hw, hj, hk, hpc'⟩ | hpc'
      · rw [hpc']
        show 2 * (count - (k + w)) + j' + 2 + _ < 2 * (count - k) + j + 2 + _
        omega
      · rw [hpc']
        show j - 0 + 1 + _ < 2 * (count - k) + j + 2 + _
        omega
  | write i n j m =>
      rw [hpc] at hnext
      rcases hnext with ⟨hm, hpc'⟩ | ⟨hm, hpc'⟩
      · rw [hpc']
        show j - (m + 1) + 1 + _ < j - m + 1 + _
        omega
      · rw [hpc']
        show pollSteps c (i + 1) n < j - m + 1 + _
        omega
  | returned =>
      rw [hpc] at hnext
      exact hnext.elim

/-- **Every step brings a server that executes a batch nearer to the end of its `outb_write`.** -/
theorem left_serverStep {c s : ℕ} {o : Oracle} (hstep : serverStep st s o = .ok (st', evs))
    (hserves : (st.server s).pc.Serves c) (hno : ∀ n j m, (st.server s).pc = .write c n j m → m < j) :
    (st'.server s).pc.Serves c ∧ (st'.server s).pc.left < (st.server s).pc.left := by
  have hnext := serverStep_next hstep
  cases hpc : (st.server s).pc with
  | exec i n count k j =>
      rw [hpc] at hnext hserves
      rcases hnext with ⟨w, j', hw, hj, hk, hpc'⟩ | hpc'
      · rw [hpc']
        refine ⟨hserves, ?_⟩
        show 2 * (count - (k + w)) + j' + 2 < 2 * (count - k) + j + 2
        omega
      · rw [hpc']
        refine ⟨hserves, ?_⟩
        show j - 0 + 1 < 2 * (count - k) + j + 2
        omega
  | write i n j m =>
      rw [hpc] at hnext hserves
      obtain rfl : i = c := hserves
      have hlt := hno n j m hpc
      rcases hnext with ⟨hm, hpc'⟩ | ⟨hm, hpc'⟩
      · rw [hpc']
        refine ⟨rfl, ?_⟩
        show j - (m + 1) + 1 < j - m + 1
        omega
      · omega
  | _ => rw [hpc] at hserves; exact hserves.elim

end

/-! ### A server is never blocked -/

theorem storeRefCount_enabled (m : Mem) (e rc : ℕ) : storeRefCount m e rc ≠ .error .notEnabled := by
  intro h
  by_cases hl : m.Live e
  · obtain ⟨m', hm⟩ := storeRefCount_total rc hl
    rw [hm] at h
    cases h
  · simp [storeRefCount, hl] at h

theorem randomVictim_enabled (p : Partition) (tscs : List ℕ) :
    randomVictim p tscs ≠ .error .notEnabled := by
  induction tscs with
  | nil => simp [randomVictim]
  | cons t tscs ih =>
      rw [randomVictim]
      split
      · simp
      · exact ih

theorem victim_enabled (p : Partition) (tscs : List ℕ) : victim p tscs ≠ .error .notEnabled := by
  unfold victim
  split
  · split <;> simp
  · exact randomVictim_enabled p tscs

section

variable {release : ReleaseValueF}

theorem evictOne_enabled (hrel : ∀ m e, release.run m e ≠ .error .notEnabled) (esize : ℕ)
    (tscs : List ℕ) (p : Partition) (m : Mem) :
    evictOne release esize tscs p m ≠ .error .notEnabled := by
  intro h
  unfold evictOne at h
  split at h
  · rcases Outcome.bind_error.mp h with h | ⟨⟨l, tscs'⟩, -, h⟩
    · exact victim_enabled p tscs h
    · rcases Outcome.bind_error.mp h with h | ⟨m', -, h⟩
      · exact hrel m l h
      · cases h
  · cases h

theorem evictLoop_enabled (hrel : ∀ m e, release.run m e ≠ .error .notEnabled) (boundary esize fuel : ℕ)
    (allocs : List (Option ℕ)) (tscs : List ℕ) (p : Partition) (m : Mem) (removed : List Removal) :
    evictLoop release boundary esize fuel allocs tscs p m removed ≠ .error .notEnabled := by
  induction fuel generalizing allocs tscs p m removed with
  | zero => simp [evictLoop]
  | succ fuel ih =>
      intro h
      rw [evictLoop] at h
      split at h
      · rcases Outcome.bind_error.mp h with h | ⟨⟨got, m'⟩, -, h⟩
        · unfold memalign at h
          split at h
          · cases h
          · split at h <;> cases h
        · cases got with
          | some e => cases h
          | none =>
              rcases Outcome.bind_error.mp h with h | ⟨x, -, h⟩
              · exact evictOne_enabled hrel _ _ _ _ h
              · exact ih _ _ _ _ _ h
      · rcases Outcome.bind_error.mp h with h | ⟨x, -, h⟩
        · exact evictOne_enabled hrel _ _ _ _ h
        · exact ih _ _ _ _ _ h

theorem hashInsert_enabled (hrel : ∀ m e, release.run m e ≠ .error .notEnabled) (p : Partition) (m : Mem)
    (key : ℕ) (size : ℤ) (o : Oracle) : hashInsert p m key size release o ≠ .error .notEnabled := by
  intro h
  rw [hashInsert_eq] at h
  rcases Outcome.bind_error.mp h with h | ⟨x, -, h⟩
  · cases hold : (hashLookup p m key).1 with
    | none =>
        rw [hold] at h
        cases h
    | some e =>
        rw [hold] at h
        rcases Outcome.bind_error.mp h with h | ⟨m', -, h⟩
        · exact hrel m e h
        · cases h
  · rcases Outcome.bind_error.mp h with h | ⟨y, -, h⟩
    · exact evictLoop_enabled hrel _ _ _ _ _ _ _ _ h
    · cases h

end

theorem serverOp_enabled (t : Table) (s : ℕ) (o : Oracle) (op : Op) :
    serverOp t s o op ≠ .error .notEnabled := by
  have hrel : ∀ m e, mpRelease.run m e ≠ .error .notEnabled := fun m e => storeRefCount_enabled m e _
  intro h
  cases op with
  | lookup key =>
      simp only [serverOp] at h
      split at h
      · split at h <;> cases h
      · cases h
  | insert key size =>
      rcases Outcome.bind_error.mp h with h | ⟨r, -, h⟩
      · exact hashInsert_enabled hrel _ _ _ _ _ h
      · cases h
  | release e =>
      rcases Outcome.bind_error.mp h with h | ⟨m, -, h⟩
      · exact hrel _ _ h
      · cases h

/-- A server thread that has not returned waits for nothing: it takes a step, or it aborts. -/
theorem serverStep_enabled {st : Sys} {s : ℕ} (hrun : (st.server s).pc ≠ .returned) (o : Oracle) :
    serverStep st s o ≠ .error .notEnabled := by
  intro h
  cases hpc : (st.server s).pc with
  | top => simp [serverStep, hpc] at h
  | clients => simp [serverStep, hpc] at h
  | poll i n => simp [serverStep, hpc] at h
  | read i n pc =>
      simp only [serverStep, hpc] at h
      split at h <;> cases h
  | exec i n count k j =>
      simp only [serverStep, hpc] at h
      split at h
      · split at h
        · cases h
        · rcases Outcome.bind_error.mp h with h | ⟨x, -, h⟩
          · exact serverOp_enabled _ _ _ _ h
          · cases h
      · split at h <;> cases h
  | write i n j m =>
      simp only [serverStep, hpc] at h
      split at h <;> cases h
  | returned => exact hrun hpc

/-! ### What a step leaves to the server -/

/-- The step in which server `s` frees the slot of client `c` it has read. -/
def Sys.Consumes (c s : ℕ) (st : Sys) : Act → Prop
  | .server s' _ => s' = s ∧ ∃ n count, (st.server s).pc = .read c n (.clear count)
  | _ => False

/-- The step in which server `s` publishes its responses to client `c`. -/
def Sys.Publishes (c s : ℕ) (st : Sys) : Act → Prop
  | .server s' _ => s' = s ∧ ∃ n j m, (st.server s).pc = .write c n j m ∧ j ≤ m
  | _ => False

/-- Steps of server `s`. -/
def Act.ofServer (s : ℕ) : Act → Bool
  | .server s' _ => s' = s
  | _ => false

/-- Server `s` takes at most `bound` further steps before it takes a `goal` step, whatever the other
threads do, unless it is told to quit; and it is never blocked before. -/
def Sys.Soon (st : Sys) (s bound : ℕ) (goal : Sys → Act → Prop) : Prop :=
  ∀ st' as, Runs.Trace Sys.step (fun st a => a.Ok st ∧ st.quitting = false ∧ ¬ goal st a) st st' as →
    as.countP (Act.ofServer s) ≤ bound ∧ ∀ o, st'.step (.server s o) ≠ .error .notEnabled

section

variable {st st' : Sys} {f : Fifo} {evs : List Event} {c s : ℕ}

/-- A server changes an input buffer only when it frees a slot. -/
theorem serverStep_inb {s' : ℕ} {o : Oracle} (hstep : serverStep st s' o = .ok (st', evs))
    (hno : ¬ st.Consumes c s (.server s' o)) :
    ((st'.client c).box s).inb = ((st.client c).box s).inb := by
  by_cases hs : s' = s
  · subst hs
    cases hpc : (st.server s').pc with
    | read i n pc =>
        simp only [serverStep, hpc] at hstep
        split at hstep
        · cases hstep
          rfl
        · next b buf count heq =>
          cases hstep
          by_cases hi : c = i
          · subst hi
            cases pc with
            | clear count' => exact absurd ⟨rfl, n, count', hpc⟩ hno
            | copy count' => cases heq
            | test count' =>
                simp only [inpbReadStep] at heq
                split at heq
                · cases heq
                · split at heq
                  · cases heq
                  · cases heq
                    simp [Sys.setServer, Sys.setClient, Client.setIn]
          · simp [Sys.setServer, Sys.setClient, hi]
    | write i n j m =>
        have hout : ∀ b, (((st.setClient i ((st.client i).setOut s' b)).client c).box s').inb
            = ((st.client c).box s').inb := by
          intro b
          by_cases hi : c = i
          · subst hi
            simp [Sys.setClient, Client.setOut]
          · simp [Sys.setClient, hi]
        simp only [serverStep, hpc] at hstep
        split at hstep
        · cases hstep
          exact hout _
        · cases hstep
          exact hout _
    | exec i n count k j =>
        simp only [serverStep, hpc] at hstep
        split at hstep
        · split at hstep
          · cases hstep
          · obtain ⟨⟨t, resp, removed⟩, hop, hret⟩ := Outcome.bind_ok.mp hstep
            cases hret
            rfl
        · split at hstep
          · cases hstep
            rfl
          · cases hstep
    | top => simp only [serverStep, hpc] at hstep; cases hstep; rfl
    | clients => simp only [serverStep, hpc] at hstep; cases hstep; rfl
    | poll i n => simp only [serverStep, hpc] at hstep; cases hstep; rfl
    | returned => simp only [serverStep, hpc] at hstep; cases hstep
  · rw [(serverStep_frame hstep).1.box c s (Ne.symm hs)]

theorem Sys.flushing_of_stopper {i k : ℕ} {pc : FlushPc} (h : st.stopper = .flush i k pc) :
    st.flushing k i = some pc := by
  simp [Sys.flushing, h]

/-- Nothing but the server empties the slot it reads next, and no step takes a client away. -/
theorem filled_step (hc : Coupled st f) (hcn : c < st.nclients)
    (hfilled : ((st.client c).box s).inb.Filled) {a : Act} (hstep : st.step a = .ok (st', evs))
    (hno : ¬ st.Consumes c s a) : ((st'.client c).box s).inb.Filled := by
  have hflush : ∀ pc, st.flushing c s = some pc →
      (inpbFlushStep ((st.client c).box s).inb pc).1.Filled := by
    intro pc hfl
    obtain ⟨t, -, hbox⟩ := (hc.client c).box s
    rw [hfl] at hbox
    exact hbox.filled_flushStep hfilled
  cases a with
  | create values servers =>
      obtain ⟨st₁, h₁, heq⟩ := Outcome.map_ok.mp hstep
      cases heq
      unfold createClient at h₁
      split at h₁
      · split at h₁
        · cases h₁
          show ((Function.update st.client st.nclients _ c).box s).inb.Filled
          rw [Function.update_of_ne hcn.ne]
          exact hfilled
        · cases h₁
      · cases h₁
  | start stack =>
      obtain ⟨st₁, h₁, heq⟩ := Outcome.map_ok.mp hstep
      cases heq
      unfold startServers at h₁
      split at h₁
      · cases h₁
        exact hfilled
      · cases h₁
  | stop =>
      simp only [Sys.step] at hstep
      split at hstep
      · cases hstep
        exact hfilled
      · cases hstep
  | stopper =>
      obtain ⟨st₁, h₁, heq⟩ := Outcome.map_ok.mp hstep
      cases heq
      rcases (stopperStep_inb h₁ c s).2 with hinb | ⟨pc, hpc, hinb⟩
      · rw [hinb]
        exact hfilled
      · rw [hinb]
        exact hflush pc (Sys.flushing_of_stopper hpc)
  | call c' k =>
      simp only [Sys.step] at hstep
      split at hstep
      · split at hstep
        · obtain ⟨⟨cl, evs'⟩, h₁, heq⟩ := Outcome.map_ok.mp hstep
          cases heq
          by_cases hcc : c = c'
          · subst hcc
            show ((Function.update st.client c cl c).box s).inb.Filled
            rw [Function.update_self, startCall_box h₁]
            exact hfilled
          · show ((Function.update st.client c' cl c).box s).inb.Filled
            rw [Function.update_of_ne hcc]
            exact hfilled
        · cases hstep
      · cases hstep
  | client c' =>
      obtain ⟨⟨cl, evs'⟩, h₁, heq⟩ := Outcome.map_ok.mp hstep
      cases heq
      by_cases hcc : c = c'
      · subst hcc
        show ((Function.update st.client c cl c).box s).inb.Filled
        rw [Function.update_self]
        rcases clientStep_inb h₁ s with hinb | ⟨m, ret, -, hinb⟩ | ⟨pc, ret, hpc, hinb⟩
        · rw [hinb]
          exact hfilled
        · rw [hinb]
          exact hfilled
        · rw [hinb]
          refine hflush pc ?_
          have hidle : st.stopper = .idle := by
            by_contra hne
            have hpc' := hc.stopping hne c
            rw [hpc] at hpc'
            cases hpc'
          rw [Sys.flushing_of_idle hidle, hpc]
          exact if_pos rfl
      · show ((Function.update st.client c' cl c).box s).inb.Filled
        rw [Function.update_of_ne hcc]
        exact hfilled
  | server s' o =>
      simp only [Sys.step] at hstep
      split at hstep
      · rw [serverStep_inb hstep hno]
        exact hfilled
      · cases hstep

/-- The other threads leave a running server where it is, and clients are only added. -/
theorem server_step_of_ne (hs : s < st.nservers) (hrun : (st.server s).pc ≠ .returned) {a : Act}
    (hstep : st.step a = .ok (st', evs)) (hne : a.ofServer s = false) :
    st'.server s = st.server s := by
  cases a with
  | create values servers =>
      obtain ⟨st₁, h₁, heq⟩ := Outcome.map_ok.mp hstep
      cases heq
      unfold createClient at h₁
      split at h₁
      · split at h₁ <;> cases h₁
        rfl
      · cases h₁
  | start stack =>
      obtain ⟨st₁, h₁, heq⟩ := Outcome.map_ok.mp hstep
      cases heq
      unfold startServers at h₁
      split at h₁
      · next hcond => exact absurd (hcond.2 s (List.mem_range.mpr hs)) hrun
      · cases h₁
  | stop =>
      simp only [Sys.step] at hstep
      split at hstep <;> cases hstep
      rfl
  | stopper =>
      obtain ⟨st₁, h₁, heq⟩ := Outcome.map_ok.mp hstep
      cases heq
      rw [(stopperStep_frame h₁).2.2]
  | call c' k =>
      simp only [Sys.step] at hstep
      split at hstep
      · split at hstep
        · obtain ⟨⟨cl, evs'⟩, h₁, heq⟩ := Outcome.map_ok.mp hstep
          cases heq
          rfl
        · cases hstep
      · cases hstep
  | client c' =>
      obtain ⟨⟨cl, evs'⟩, h₁, heq⟩ := Outcome.map_ok.mp hstep
      cases heq
      rfl
  | server s' o =>
      simp only [Sys.step] at hstep
      split at hstep
      · refine (serverStep_frame hstep).1.server s ?_
        rintro rfl
        simp [Act.ofServer] at hne
      · cases hstep

theorem nclients_step {a : Act} (hstep : st.step a = .ok (st', evs)) : st.nclients ≤ st'.nclients := by
  cases a with
  | create values servers =>
      obtain ⟨st₁, h₁, heq⟩ := Outcome.map_ok.mp hstep
      cases heq
      unfold createClient at h₁
      split at h₁
      · split at h₁ <;> cases h₁
        exact Nat.le_succ _
      · cases h₁
  | start stack =>
      obtain ⟨st₁, h₁, heq⟩ := Outcome.map_ok.mp hstep
      cases heq
      unfold startServers at h₁
      split at h₁ <;> cases h₁
      exact le_rfl
  | stop =>
      simp only [Sys.step] at hstep
      split at hstep <;> cases hstep
      exact le_rfl
  | stopper =>
      obtain ⟨st₁, h₁, heq⟩ := Outcome.map_ok.mp hstep
      cases heq
      exact (stopperStep_frame h₁).1.ge
  | call c' k =>
      simp only [Sys.step] at hstep
      split at hstep
      · split at hstep
        · obtain ⟨⟨cl, evs'⟩, h₁, heq⟩ := Outcome.map_ok.mp hstep
          cases heq
          exact le_rfl
        · cases hstep
      · cases hstep
  | client c' =>
      obtain ⟨⟨cl, evs'⟩, h₁, heq⟩ := Outcome.map_ok.mp hstep
      cases heq
      exact le_rfl
  | server s' o =>
      simp only [Sys.step] at hstep
      split at hstep
      · exact (serverStep_frame hstep).1.nclients.ge
      · cases hstep

/-! ### Progress -/

/-- A server thread that runs, in a state of a run. -/
structure Serving (t : Table) (s : ℕ) (st : Sys) : Prop where
  reach : ∃ log, Sys.Reach (Sys.init t) st log
  exists_ : s < st.nservers
  runs : (st.server s).pc ≠ .returned

variable {t : Table}

/-- While nobody sets `quitting`, a server does not see it set. -/
theorem Serving.flag (h : Serving t s st) (hq : st.quitting = false) :
    (st.server s).quitting = false := by
  obtain ⟨log, hreach⟩ := h.reach
  by_contra hset
  have := (reach_stopping hreach).1.flag s h.exists_ (by simpa using hset)
  rw [hq] at this
  cases this

theorem Serving.enabled (h : Serving t s st) (o : Oracle) : st.step (.server s o) ≠ .error .notEnabled := by
  show (if s < st.nservers then serverStep st s o else _) ≠ _
  rw [if_pos h.exists_]
  exact serverStep_enabled h.runs o

theorem Serving.step (h : Serving t s st) (hq : st.quitting = false) {a : Act}
    (hok : a.Ok st) (hstep : st.step a = .ok (st', evs)) : Serving t s st' := by
  have hserver := h.flag hq
  obtain ⟨log, hreach⟩ := h.reach
  have hreach' := Runs.Reach.step hreach hok hstep
  refine ⟨⟨_, hreach'⟩, ?_, ?_⟩
  · rw [reach_nservers hreach', ← reach_nservers hreach]
    exact h.exists_
  · by_cases hown : a.ofServer s = true
    · cases a with
      | server s' o =>
          obtain rfl : s' = s := of_decide_eq_true hown
          simp only [Sys.step, if_pos h.exists_] at hstep
          obtain ⟨hflag, hreturned⟩ := serverStep_flag hstep
          intro hpc
          rw [hreturned hpc, hq, hserver, ite_self] at hflag
          cases hflag
      | _ => simp [Act.ofServer] at hown
    · rw [server_step_of_ne h.exists_ h.runs hstep (by simpa using hown)]
      exact h.runs

/-- A batch in the slot the server reads next is read soon. -/
theorem Serving.consumes (h : Serving t s st) (hc : c < st.nclients)
    (hfilled : ((st.client c).box s).inb.Filled) :
    st.Soon s ((st.server s).pc.distance c) (Sys.Consumes c s) := by
  intro st' as htrace
  obtain ⟨⟨h', -, -⟩, hle⟩ := htrace.countP_add_rank
    (I := fun st => Serving t s st ∧ c < st.nclients ∧ ((st.client c).box s).inb.Filled)
    (Act.ofServer s) (fun st => (st.server s).pc.distance c) ⟨h, hc, hfilled⟩ (by
      rintro st st' a evs ⟨h, hc, hfilled⟩ ⟨hok, hq, hno⟩ hstep
      obtain ⟨log, hreach⟩ := h.reach
      obtain ⟨f, -, hcoupled⟩ := reach_coupled hreach
      refine ⟨⟨h.step hq hok hstep, hc.trans_le (nclients_step hstep),
        filled_step hcoupled hc hfilled hstep hno⟩, ?_⟩
      by_cases hown : a.ofServer s = true
      · rw [if_pos hown]
        cases a with
        | server s' o =>
            obtain rfl : s' = s := of_decide_eq_true hown
            simp only [Sys.step, if_pos h.exists_] at hstep
            exact distance_serverStep hstep hc (h.flag hq) hfilled
              fun n count hpc => hno ⟨rfl, n, count, hpc⟩
        | _ => simp [Act.ofServer] at hown
      · rw [if_neg hown, server_step_of_ne h.exists_ h.runs hstep (by simpa using hown)]
        exact le_rfl)
  exact ⟨by omega, h'.enabled⟩

/-- The responses of a batch that is being executed are published soon. -/
theorem Serving.publishes (h : Serving t s st)
    (hserves : (st.server s).pc.Serves c) :
    st.Soon s (st.server s).pc.left (Sys.Publishes c s) := by
  intro st' as htrace
  obtain ⟨⟨h', -⟩, hle⟩ := htrace.countP_add_rank
    (I := fun st => Serving t s st ∧ (st.server s).pc.Serves c)
    (Act.ofServer s) (fun st => (st.server s).pc.left) ⟨h, hserves⟩ (by
      rintro st st' a evs ⟨h, hserves⟩ ⟨hok, hq, hno⟩ hstep
      have h' := h.step hq hok hstep
      by_cases hown : a.ofServer s = true
      · rw [if_pos hown]
        cases a with
        | server s' o =>
            obtain rfl : s' = s := of_decide_eq_true hown
            simp only [Sys.step, if_pos h.exists_] at hstep
            obtain ⟨hserves', hlt⟩ := left_serverStep hstep hserves fun n j m hpc =>
              Nat.lt_of_not_le fun hle => hno ⟨rfl, n, j, m, hpc, hle⟩
            exact ⟨⟨h', hserves'⟩, hlt⟩
        | _ => simp [Act.ofServer] at hown
      · rw [if_neg hown, server_step_of_ne h.exists_ h.runs hstep (by simpa using hown)]
        exact ⟨⟨h', hserves⟩, le_rfl⟩)
  exact ⟨by omega, h'.enabled⟩

/-- **No stuck state.** While the servers run, a client that waits for a response of a server has
nothing for it in its local buffer, and the response is published, or the server has a batch of the
client in hand and publishes its responses soon, or it has one to read and reads it soon.  A client
that waits for a slot waits for a server that has a batch of it to read and reads it soon. -/
theorem reach_no_stuck {log : List Event} (h : Sys.Reach (Sys.init t) st log) (hrun : st.Running)
    (c s : ℕ) :
    ((st.client c).pc.Reads s → s < st.nservers ∧ ((st.client c).box s).inb.localIndex = 0 ∧
      (((st.client c).box s).out.Unread ∨
        ((st.client c).box s).inb.Filled ∧
          st.Soon s ((st.server s).pc.distance c) (Sys.Consumes c s) ∨
        (st.server s).pc.Serves c ∧ st.Soon s (st.server s).pc.left (Sys.Publishes c s))) ∧
    ((st.client c).WaitsSlot s → s < st.nservers ∧ ((st.client c).box s).inb.Filled ∧
      st.Soon s ((st.server s).pc.distance c) (Sys.Consumes c s)) := by
  obtain ⟨hq, hn, hservers⟩ := hrun
  have hn' : 0 < t.nservers := reach_nservers h ▸ hn
  have hplaced := reach_placed h hn'
  obtain ⟨f, -, hcoupled⟩ := reach_coupled h
  have hclient : (st.client c).pc ≠ .idle → c < st.nclients := by
    intro hne
    by_contra hge
    exact hne (hcoupled.unborn c (Nat.le_of_not_lt hge)).1
  have hserving : s < st.nservers → Serving t s st := fun hs => ⟨⟨log, h⟩, hs, hservers s hs⟩
  constructor
  · intro hr
    obtain ⟨-, hserver, -, -⟩ := hcoupled.fetching hr
    have hs := (hplaced c).server s hserver
    have hc : c < st.nclients := hclient (by rintro heq; rw [heq] at hr; exact hr.elim)
    obtain ⟨hwhere, hidx⟩ := hcoupled.awaited hplaced hr
    refine ⟨hs, hidx, hwhere.imp_right ?_⟩
    rintro (hfilled | hserves)
    · exact Or.inl ⟨hfilled, (hserving hs).consumes hc hfilled⟩
    · exact Or.inr ⟨hserves, (hserving hs).publishes hserves⟩
  · rintro ⟨⟨ret, hpc⟩, hwr⟩
    have hs := (hplaced c).server s (by rw [hpc]; rfl)
    have hc : c < st.nclients := hclient (by rw [hpc]; simp)
    obtain ⟨t', -, hbox⟩ := (hcoupled.client c).box s
    have hfilled := hbox.filled_of_full hwr
    exact ⟨hs, hfilled, (hserving hs).consumes hc hfilled⟩

end

/-- A client of one server looks up a key and waits for the answer; the server takes `k` steps. -/
def waitRun (k : ℕ) : List Act := List.flatten [
  [.create (fun _ => 0) (fun _ => 0), .start fun _ _ => 0],
  .call 0 (.lookup 5) :: List.replicate 3 (.client 0),
  .call 0 .getNext :: List.replicate 6 (.client 0),
  List.replicate k (.server 0 ⟨[], []⟩)]

theorem reach_no_stuck_lookup : ∃ st log,
    Sys.Reach (Sys.init (emptyTable 4 1024 1 .lru)) st log ∧ st.Running ∧ (st.client 0).pc.Reads 0 ∧
      0 < st.nservers ∧ ((st.client 0).box 0).inb.localIndex = 0 ∧
      (((st.client 0).box 0).out.Unread ∨
        ((st.client 0).box 0).inb.Filled ∧
          st.Soon 0 ((st.server 0).pc.distance 0) (Sys.Consumes 0 0) ∨
        (st.server 0).pc.Serves 0 ∧ st.Soon 0 (st.server 0).pc.left (Sys.Publishes 0 0)) := by
  have hval : (Runs.run Sys.step (fun st _ a => a.Ok st) (waitRun 0)
      (Sys.init (emptyTable 4 1024 1 .lru)) []).any
        (fun r => decide (r.1.Running ∧ (r.1.client 0).pc.Reads 0)) = true := by
    decide +kernel
  obtain ⟨⟨st, log⟩, hrun, hok⟩ := (Option.any_eq_true _ _).mp hval
  obtain ⟨hrunning, hr⟩ := of_decide_eq_true hok
  have hreach : Sys.Reach (Sys.init (emptyTable 4 1024 1 .lru)) st log := Runs.Reach.start.run hrun
  exact ⟨st, log, hreach, hrunning, hr, (reach_no_stuck hreach hrunning 0 0).1 hr⟩

/-- A client can wait for a response while none of its slots is filled: the server has the only
batch in hand. -/
theorem waiting_without_slot : ∃ st log,
    Sys.Reach (Sys.init (emptyTable 4 1024 1 .lru)) st log ∧ st.Running ∧ (st.client 0).pc.Reads 0 ∧
      ¬ ((st.client 0).box 0).out.Unread ∧ (st.server 0).pc = .exec 0 1 1 0 0 ∧
      ∀ i < INPB_COUNT, ((st.client 0).box 0).inb.data i 0 = 0 := by
  have hval : (Runs.run Sys.step (fun st _ a => a.Ok st) (waitRun 7)
      (Sys.init (emptyTable 4 1024 1 .lru)) []).any
        (fun r => decide (r.1.Running ∧ (r.1.client 0).pc.Reads 0 ∧
          ¬ ((r.1.client 0).box 0).out.Unread ∧ (r.1.server 0).pc = .exec 0 1 1 0 0 ∧
          ∀ i < INPB_COUNT, ((r.1.client 0).box 0).inb.data i 0 = 0)) = true := by
    decide +kernel
  obtain ⟨⟨st, log⟩, hrun, hok⟩ := (Option.any_eq_true _ _).mp hval
  exact ⟨st, log, Runs.Reach.start.run hrun, of_decide_eq_true hok⟩

end SmpHashTable
