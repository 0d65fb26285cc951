import SmpHashTable.Box
import SmpHashTable.Pending

/-!
# The invariant of a client

A client's boxes, its pending ring and the place it has reached in a call, against its session in the
abstract system.  The main result of this module says that a step of a client keeps the invariant,
with the session following the events of the step.
-/

namespace SmpHashTable

/-- The message of a release call is issued when the call starts. -/
def WriteRet.sending (m : Msg) : WriteRet → List Msg
  | .release _ => [m]
  | _ => []

/-- A message issued to server `s` that is not in its local buffer yet. -/
def ClientPc.sending : ClientPc → ℕ → List Msg
  | .write s' m ret, s => if s = s' then ret.sending m else []
  | .append s' m ret, s => if s = s' then ret.sending m else []
  | .flush s' _ (.write m ret), s => if s = s' then ret.sending m else []
  | _, _ => []

/-- Where the client's flush of the buffer for server `s` stands. -/
def ClientPc.flushing : ClientPc → ℕ → Option FlushPc
  | .flush s' pc _, s => if s = s' then some pc else none
  | _, _ => none

def WriteRet.doall? : WriteRet → Option Doall
  | .doall d => some d
  | _ => none

def ReadRet.doall? : ReadRet → Option Doall
  | .doall d => some d
  | .drain d => some d
  | _ => none

def FlushRet.doall? : FlushRet → Option Doall
  | .write _ ret => ret.doall?
  | .read ret => ret.doall?
  | .release => none
  | .doall d => some d

/-- The locals of `smp_hash_doall`, if the client is in it. -/
def ClientPc.doall? : ClientPc → Option Doall
  | .idle => none
  | .window _ => none
  | .write _ _ ret => ret.doall?
  | .append _ _ ret => ret.doall?
  | .flush _ _ ret => ret.doall?
  | .load _ _ ret => ret.doall?
  | .take _ _ ret => ret.doall?
  | .doall d => some d
  | .flushAll d _ => some d
  | .drain d => some d

/-- There is room for one more request. -/
def Session.Room (x : Session) : Prop := x.ready.length + x.unread.length < MAX_PENDING_SIZE

/-- The number of unread requests of server `s`. -/
def Session.pending (x : Session) (s : ℕ) : ℕ := (x.unread.map Prod.fst).count s

/-- What `inpb_write` may be called for. -/
def SendInv (n : ℕ) (x : Session) (s : ℕ) (m : Msg) : WriteRet → Prop
  | .request => m.Valid ∧ m.isRequest = true ∧ s = hashGetServer n m.key ∧ x.Room ∧
      x.pending s < MAX_PENDING_PER_SERVER
  | .release _ => m.Valid ∧ m.isRequest = false
  | .doall d => ∃ q, d.queries[d.i]? = some q ∧ q.msg = some m ∧ s = hashGetServer n q.key ∧
      x.pending s < MAX_PENDING_PER_SERVER

/-- What a response of server `s` may be read for: the oldest unread request is one to `s`. -/
def FetchInv (x : Session) (s : ℕ) (ret : ReadRet) : Prop :=
  (∃ m unread, x.unread = (s, m) :: unread) ∧
    match ret with
    | .window m => m.Valid ∧ m.isRequest = true ∧ x.Room
    | .getNext => x.ready = []
    | .doall _ => True
    | .drain d => d.i = d.queries.length

/-- What is known at each place. -/
def PcInv (n : ℕ) (x : Session) : ClientPc → Prop
  | .idle => True
  | .window m => m.Valid ∧ m.isRequest = true ∧ x.Room
  | .write s m ret => SendInv n x s m ret
  | .append s m ret => SendInv n x s m ret
  | .flush s _ (.write m ret) => SendInv n x s m ret
  | .flush s _ (.read ret) => FetchInv x s ret
  | .flush _ _ .release => True
  | .flush _ _ (.doall d) => d.i = d.queries.length
  | .load s _ ret => FetchInv x s ret
  | .take s _ ret => FetchInv x s ret
  | .doall _ => True
  | .flushAll d _ => d.i = d.queries.length
  | .drain d => d.i = d.queries.length

/-- The boxes carry what the session says, except for a message still being sent. -/
def BoxesInv (cl : Client) (turn : ℕ → Turn) (fl : ℕ → Option FlushPc) (x : Session) : Prop :=
  ∀ s, ∃ t, x.todo s = t ++ cl.pc.sending s ∧
    BoxInv (cl.box s) (turn s) (fl s) t ((x.ans s).map Prod.snd)

/-- The pending ring holds the session's requests; inside `smp_hash_doall` it is empty. -/
def PendInv (n : ℕ) (pd : PendingData) (x : Session) : Option Doall → Prop
  | none => PdRep pd (x.ready.map Prod.snd) (x.unread.map Prod.fst)
  | some d => PdRep pd [] [] ∧ DoallRep n d x

structure ClientInv (n : ℕ) (cl : Client) (turn : ℕ → Turn) (fl : ℕ → Option FlushPc) (x : Session) :
    Prop where
  box : BoxesInv cl turn fl x
  pend : PendInv n cl.pd x cl.pc.doall?
  pc : PcInv n x cl.pc
  room : ∀ s m ret, cl.pc = .append s m ret →
    (cl.box s).inb.localIndex + m.words.length ≤ INPB_SIZE

theorem PendInv.window {n : ℕ} {pd : PendingData} {x : Session} {d : Option Doall}
    (h : PendInv n pd x d) (s : ℕ) : x.pending s ≤ MAX_PENDING_PER_SERVER := by
  cases d with
  | none => exact PdRep.window h s
  | some d => exact h.2.window s

theorem clientInv_zero (n : ℕ) (values servers : ℕ → ℕ) :
    ClientInv n ⟨.idle, ⟨values, servers, 0, 0, 0, fun _ => 0⟩, fun _ => Box.zero⟩ (fun _ => .away)
      (fun _ => none) Session.empty :=
  ⟨fun _ => ⟨[], rfl, boxInv_zero⟩, pdRep_zero values servers, trivial, by simp⟩

/-- All boxes but one are as before. -/
theorem BoxesInv.at {cl cl' : Client} {turn turn' : ℕ → Turn} {fl fl' : ℕ → Option FlushPc}
    {x x' : Session} (h : BoxesInv cl turn fl x) (s : ℕ)
    (hother : ∀ s', s' ≠ s → x'.todo s' = x.todo s' ∧ x'.ans s' = x.ans s' ∧ cl'.box s' = cl.box s' ∧
      cl'.pc.sending s' = cl.pc.sending s' ∧ turn' s' = turn s' ∧ fl' s' = fl s')
    (hs : ∃ t, x'.todo s = t ++ cl'.pc.sending s ∧
      BoxInv (cl'.box s) (turn' s) (fl' s) t ((x'.ans s).map Prod.snd)) : BoxesInv cl' turn' fl' x' := by
  intro s'
  by_cases heq : s' = s
  · rw [heq]
    exact hs
  · obtain ⟨htodo, hans, hbox, hsend, hturn, hfl⟩ := hother s' heq
    rw [htodo, hans, hbox, hsend, hturn, hfl]
    exact h s'

/-- The place changes, but neither a message on its way nor a flush. -/
theorem BoxesInv.goto {cl : Client} {turn : ℕ → Turn} {x : Session} {pc : ClientPc}
    (h : BoxesInv cl turn cl.pc.flushing x) (hsend : pc.sending = cl.pc.sending)
    (hfl : pc.flushing = cl.pc.flushing) :
    BoxesInv { cl with pc := pc } turn pc.flushing x := by
  intro s
  obtain ⟨t, ht, hbox⟩ := h s
  exact ⟨t, by rw [ht, hsend], by rw [hfl]; exact hbox⟩

/-- A flush of the buffer for server `s` begins. -/
theorem BoxesInv.enterFlush {cl : Client} {turn : ℕ → Turn} {x : Session} {s : ℕ} {ret : FlushRet}
    (h : BoxesInv cl turn cl.pc.flushing x) (hfl : cl.pc.flushing = fun _ => none)
    (hsend : (ClientPc.flush s .enter ret).sending = cl.pc.sending) :
    BoxesInv { cl with pc := .flush s .enter ret } turn (ClientPc.flush s .enter ret).flushing x := by
  refine h.at s ?_ ?_
  · intro s' hne
    refine ⟨rfl, rfl, rfl, congrFun hsend s', rfl, ?_⟩
    rw [hfl]
    exact if_neg hne
  · obtain ⟨t, ht, hbox⟩ := h s
    rw [hfl] at hbox
    refine ⟨t, by rw [ht]; exact congrArg (t ++ ·) (congrFun hsend s).symm, ?_⟩
    have hself : (ClientPc.flush s .enter ret).flushing s = some .enter := if_pos rfl
    rw [hself]
    exact hbox.enterFlush

/-! ### Steps that report nothing -/

section

variable {n c : ℕ} {cl' : Client} {pd : PendingData} {box : ℕ → Box} {turn : ℕ → Turn} {x : Session}
  {evs : List Event}

theorem sending_nil_ite (s : ℕ) : (fun s' => if s' = s then ([] : List Msg) else []) = fun _ => [] := by
  funext s'
  split <;> rfl

/-- A server with unread requests makes the queue of unread requests non-empty. -/
theorem Session.unread_of_pending {s : ℕ} (h : 0 < x.pending s) :
    ∃ s' m unread, x.unread = (s', m) :: unread := by
  cases hun : x.unread with
  | nil => simp [Session.pending, hun] at h
  | cons r unread => exact ⟨r.1, r.2, unread, rfl⟩

theorem clientStep_window {m : Msg}
    (h : ClientInv n ⟨.window m, pd, box⟩ turn (ClientPc.window m).flushing x)
    (hstep : clientStep n c ⟨.window m, pd, box⟩ = .ok (cl', evs)) :
    evs = [] ∧ ClientInv n cl' turn cl'.pc.flushing x := by
  have hpd : PdRep pd (x.ready.map Prod.snd) (x.unread.map Prod.fst) := h.pend
  have hcount : pd.pendingCount (hashGetServer n m.key) = x.pending (hashGetServer n m.key) :=
    hpd.count _
  simp only [clientStep] at hstep
  split at hstep
  · next hge =>
    cases hstep
    have hpos : 0 < x.pending (hashGetServer n m.key) := by
      rw [hcount] at hge
      simp only [MAX_PENDING_PER_SERVER, OUTB_SIZE, CACHELINE] at hge
      omega
    obtain ⟨s', m', unread, hun⟩ := Session.unread_of_pending hpos
    have hnext : pd.nextServer = s' := by
      rw [hun, List.map_cons] at hpd
      exact hpd.nextServer
    rw [hnext]
    exact ⟨rfl, h.box.goto rfl rfl, h.pend, ⟨⟨m', unread, hun⟩, h.pc⟩, by simp⟩
  · next hlt =>
    cases hstep
    obtain ⟨hv, hreq, hroom⟩ := h.pc
    refine ⟨rfl, h.box.goto (sending_nil_ite _) rfl, h.pend, ⟨hv, hreq, rfl, hroom, ?_⟩, by simp⟩
    rw [hcount] at hlt
    omega

theorem clientStep_write {s : ℕ} {m : Msg} {ret : WriteRet}
    (h : ClientInv n ⟨.write s m ret, pd, box⟩ turn (ClientPc.write s m ret).flushing x)
    (hstep : clientStep n c ⟨.write s m ret, pd, box⟩ = .ok (cl', evs)) :
    evs = [] ∧ ClientInv n cl' turn cl'.pc.flushing x := by
  simp only [clientStep] at hstep
  split at hstep
  · split at hstep
    · cases hstep
      exact ⟨rfl, h.box.enterFlush rfl rfl, h.pend, h.pc, by simp⟩
    · next hle =>
      cases hstep
      refine ⟨rfl, h.box.goto rfl rfl, h.pend, h.pc, ?_⟩
      rintro s' m' ret' ⟨⟩
      exact Nat.le_of_not_lt hle
  · cases hstep

/-- The effect of a step of `inpb_flush` on the boxes. -/
theorem BoxesInv.flushStep {s : ℕ} {pc : FlushPc} {ret : FlushRet} {pc' : ClientPc} {b' : InputBuffer}
    (h : BoxesInv ⟨.flush s pc ret, pd, box⟩ turn (ClientPc.flush s pc ret).flushing x)
    (hsend : pc'.sending = (ClientPc.flush s pc ret).sending)
    (hfl : ∀ s', s' ≠ s → pc'.flushing s' = none)
    (hb : ∀ t ans, BoxInv (box s) (turn s) (some pc) t ans →
      BoxInv { box s with inb := b' } (turn s) (pc'.flushing s) t ans) :
    BoxesInv { Client.setIn ⟨.flush s pc ret, pd, box⟩ s b' with pc := pc' } turn pc'.flushing x := by
  refine h.at s ?_ ?_
  · intro s' hne
    refine ⟨rfl, rfl, Function.update_of_ne hne _ _, congrFun hsend s', rfl, ?_⟩
    rw [hfl s' hne]
    exact (if_neg hne).symm
  · obtain ⟨t, ht, hbox⟩ := h s
    have hself : (ClientPc.flush s pc ret).flushing s = some pc := if_pos rfl
    rw [hself] at hbox
    refine ⟨t, by rw [ht]; exact congrArg (t ++ ·) (congrFun hsend s).symm, ?_⟩
    have hupd : (Client.setIn ⟨.flush s pc ret, pd, box⟩ s b').box s = { box s with inb := b' } :=
      Function.update_self ..
    show BoxInv ((Client.setIn ⟨.flush s pc ret, pd, box⟩ s b').box s) _ _ _ _
    rw [hupd]
    exact hb t _ hbox

theorem clientStep_flush {s : ℕ} {pc : FlushPc} {ret : FlushRet}
    (h : ClientInv n ⟨.flush s pc ret, pd, box⟩ turn (ClientPc.flush s pc ret).flushing x)
    (hstep : clientStep n c ⟨.flush s pc ret, pd, box⟩ = .ok (cl', evs)) :
    evs = [] ∧ ClientInv n cl' turn cl'.pc.flushing x := by
  have hback : ∀ {b'}, inpbFlushStep (box s).inb pc = (b', none) → ∀ t ans,
      BoxInv (box s) (turn s) (some pc) t ans →
        BoxInv { box s with inb := b' } (turn s) none t ans ∧ b'.localIndex = 0 := by
    intro b' heq t ans hbox
    have hf := hbox.flushStep
    rw [heq] at hf
    exact hf
  simp only [clientStep] at hstep
  split at hstep
  · next b' pc' heq =>
    cases hstep
    refine ⟨rfl, h.box.flushStep ?_ (fun s' hne => if_neg hne) ?_, ?_, ?_, by simp⟩
    · cases ret <;> rfl
    · intro t ans hbox
      have hf := hbox.flushStep
      rw [heq] at hf
      have hself : (ClientPc.flush s pc' ret).flushing s = some pc' := if_pos rfl
      rw [hself]
      exact hf
    · exact h.pend
    · have hpc := h.pc
      cases ret <;> exact hpc
  · next b' heq =>
    cases hstep
    -- the flush returns; its local buffer is empty
    obtain ⟨t, -, hbox⟩ := h.box s
    have hself : (ClientPc.flush s pc ret).flushing s = some pc := if_pos rfl
    rw [hself] at hbox
    have hidx := (hback heq _ _ hbox).2
    cases ret with
    | write m wret =>
        refine ⟨rfl, h.box.flushStep rfl (fun _ _ => rfl) fun t ans hb => (hback heq t ans hb).1,
          h.pend, h.pc, ?_⟩
        rintro s' m' ret' ⟨⟩
        have hlen := m.words_length_le
        simp only [Client.setIn, Function.update_self, hidx, INPB_SIZE, CACHELINE]
        omega
    | read rret =>
        exact ⟨rfl, h.box.flushStep rfl (fun _ _ => rfl) fun t ans hb => (hback heq t ans hb).1,
          h.pend, h.pc, by simp [FlushRet.next]⟩
    | release =>
        exact ⟨rfl, h.box.flushStep rfl (fun _ _ => rfl) fun t ans hb => (hback heq t ans hb).1,
          h.pend, trivial, by simp [FlushRet.next]⟩
    | doall d =>
        exact ⟨rfl, h.box.flushStep rfl (fun _ _ => rfl) fun t ans hb => (hback heq t ans hb).1,
          h.pend, h.pc, by simp [FlushRet.next]⟩

theorem clientStep_load {s : ℕ} {blocking : Bool} {ret : ReadRet}
    (h : ClientInv n ⟨.load s blocking ret, pd, box⟩ turn (ClientPc.load s blocking ret).flushing x)
    (hstep : clientStep n c ⟨.load s blocking ret, pd, box⟩ = .ok (cl', evs)) :
    evs = [] ∧ ClientInv n cl' turn cl'.pc.flushing x := by
  simp only [clientStep] at hstep
  cases hstep
  refine ⟨rfl, ?_, h.pend, h.pc, by simp⟩
  refine h.box.at s (fun s' hne => ⟨rfl, rfl, Function.update_of_ne hne _ _, rfl, rfl, rfl⟩) ?_
  obtain ⟨t, ht, hbox⟩ := h.box s
  refine ⟨t, ht, ?_⟩
  simp only [Client.setOut, Function.update_self]
  exact hbox.readLoad

theorem clientStep_flushAll {d : Doall} {s : ℕ}
    (h : ClientInv n ⟨.flushAll d s, pd, box⟩ turn (ClientPc.flushAll d s).flushing x)
    (hstep : clientStep n c ⟨.flushAll d s, pd, box⟩ = .ok (cl', evs)) :
    evs = [] ∧ ClientInv n cl' turn cl'.pc.flushing x := by
  simp only [clientStep] at hstep
  split at hstep
  · cases hstep
    exact ⟨rfl, h.box.enterFlush rfl rfl, h.pend, h.pc, by simp⟩
  · cases hstep
    exact ⟨rfl, h.box.goto rfl rfl, h.pend, h.pc, by simp⟩

theorem clientStep_doall {d : Doall}
    (h : ClientInv n ⟨.doall d, pd, box⟩ turn (ClientPc.doall d).flushing x)
    (hstep : clientStep n c ⟨.doall d, pd, box⟩ = .ok (cl', evs)) :
    evs = [] ∧ ClientInv n cl' turn cl'.pc.flushing x := by
  obtain ⟨hpd, hd⟩ := h.pend
  simp only [clientStep] at hstep
  split at hstep
  · next q hq =>
    have hcount : d.pendingCount (hashGetServer n q.key) = x.pending (hashGetServer n q.key) :=
      hd.count _
    split at hstep
    · next hge =>
      cases hstep
      have hpos : 0 < x.pending (hashGetServer n q.key) := by
        rw [hcount] at hge
        simp only [MAX_PENDING_PER_SERVER, OUTB_SIZE, CACHELINE] at hge
        omega
      obtain ⟨s', m', unread, hun⟩ := Session.unread_of_pending hpos
      rw [hd.nextServer hun]
      exact ⟨rfl, h.box.goto rfl rfl, h.pend, ⟨⟨m', unread, hun⟩, trivial⟩, by simp⟩
    · next hlt =>
      split at hstep
      · next m hm =>
        cases hstep
        refine ⟨rfl, h.box.goto (sending_nil_ite _) rfl, h.pend, ⟨q, hq, hm, rfl, ?_⟩, by simp⟩
        rw [hcount] at hlt
        omega
      · cases hstep
  · next hnone =>
    cases hstep
    refine ⟨rfl, h.box.goto rfl rfl, h.pend, ?_, by simp⟩
    have hge : d.queries.length ≤ d.i := List.getElem?_eq_none_iff.mp hnone
    exact le_antisymm hd.le_length hge

theorem clientStep_take_none {s : ℕ} {blocking : Bool} {ret : ReadRet}
    (h : ClientInv n ⟨.take s blocking ret, pd, box⟩ turn (ClientPc.take s blocking ret).flushing x) :
    ClientInv n ⟨if blocking then .load s true ret else .flush s .enter (.read ret), pd, box⟩ turn
      (ClientPc.flushing (if blocking then .load s true ret else .flush s .enter (.read ret))) x := by
  cases blocking with
  | true => exact ⟨h.box.goto rfl rfl, h.pend, h.pc, by simp⟩
  | false => exact ⟨h.box.enterFlush rfl rfl, h.pend, h.pc, by simp⟩

end

/-! ### Steps that report events -/

/-- The events of a step of client `c` replay, change no other client's session, and leave `P`. -/
def Follows (c : ℕ) (f : Fifo) (evs : List Event) (P : Session → Prop) : Prop :=
  ∃ f', f.replay evs = some f' ∧ f'.table = f.table ∧ (∀ c', c' ≠ c → f'.session c' = f.session c') ∧
    P (f'.session c)

section

variable {c : ℕ} {f : Fifo} {P : Session → Prop}

theorem follows_nil (h : P (f.session c)) : Follows c f [] P :=
  ⟨f, rfl, rfl, fun _ _ => rfl, h⟩

theorem follows_issue {s : ℕ} {m : Msg} (hs : s = f.owner m) (h : P ((f.session c).issue s m)) :
    Follows c f [.issue c s m] P := by
  refine ⟨{ f.setSession c ((f.session c).issue s m) with held := f.held.erase m }, ?_, rfl,
    fun _ hne => f.setSession_of_ne _ hne, by simpa [Fifo.setSession] using h⟩
  simp [Fifo.replay, Runs.replay, Fifo.apply, ← hs]

theorem follows_read {s v : ℕ} {x : Session} (hx : (f.session c).read s v = some x) (h : P x) :
    Follows c f [.read c s v] P :=
  ⟨f.setSession c x, by simp [Fifo.replay, Runs.replay, Fifo.apply, hx], rfl,
    fun _ hne => f.setSession_of_ne _ hne, by simpa using h⟩

theorem follows_got {v : ℕ} {a : Req × ℕ} {ready : List (Req × ℕ)}
    (hready : (f.session c).ready = a :: ready) (hv : a.2 = v)
    (h : P { f.session c with ready := ready, done := (f.session c).done ++ [a] }) :
    Follows c f [.got c v] P := by
  have hgot : (f.session c).got v
      = some { f.session c with ready := ready, done := (f.session c).done ++ [a] } := by
    simp [Session.got, hready, hv]
  refine ⟨{ f.setSession c { f.session c with ready := ready, done := (f.session c).done ++ [a] } with
    held := f.held ++ (handleOf a.1.2 v).toList }, ?_, rfl, fun _ hne => f.setSession_of_ne _ hne, ?_⟩
  · simp [Fifo.replay, Runs.replay, Fifo.apply, hready, hgot]
  · simpa [Fifo.setSession] using h

/-- A response is read and handed out at once. -/
theorem follows_read_got {s v : ℕ} {r : Req} {x : Session} (hx : (f.session c).read s v = some x)
    (hready : x.ready = [(r, v)]) (h : P { x with ready := [], done := x.done ++ [(r, v)] }) :
    Follows c f [.read c s v, .got c v] P := by
  obtain ⟨f₁, hrun₁, ht₁, hother₁, rfl⟩ := follows_read (P := fun y => y = x) hx rfl
  obtain ⟨f₂, hrun₂, ht₂, hother₂, hP⟩ := follows_got hready rfl h
  refine ⟨f₂, ?_, ht₂.trans ht₁, fun c' hne => (hother₂ c' hne).trans (hother₁ c' hne), hP⟩
  rw [Fifo.replay, show [Event.read c s v, .got c v] = [.read c s v] ++ [.got c v] from rfl,
    Runs.replay_append]
  show (f.replay [.read c s v]).bind _ = _
  rw [hrun₁]
  exact hrun₂

end

/-- The session after the response of server `s` to its oldest unread request is read. -/
theorem Session.read_of_match {x : Session} (hm : x.Match) {s v : ℕ} {m : Msg} {unread : List Req}
    {rest : List ℕ} (hun : x.unread = (s, m) :: unread) (hans : (x.ans s).map Prod.snd = v :: rest) :
    ∃ as, as.map Prod.snd = rest ∧
      x.read s v = some { x with
        unread := unread, ans := Function.update x.ans s as, ready := x.ready ++ [((s, m), v)] } := by
  obtain ⟨a, as, ha, rfl, has⟩ := List.map_eq_cons_iff.mp hans
  have hfst : a.1 = m := hm.head hun ha
  refine ⟨as, has, ?_⟩
  have hpair : a = (m, a.2) := by rw [← hfst]
  simp only [Session.read, hun, ha]
  rw [if_pos ⟨trivial, hpair⟩]

section

variable {n c : ℕ} {cl' : Client} {pd : PendingData} {box : ℕ → Box} {turn : ℕ → Turn} {f : Fifo}
  {evs : List Event}

/-- The effect of the copy loop of `inpb_write` on the boxes. -/
theorem BoxesInv.append {x x' : Session} {s : ℕ} {m : Msg} {ret : WriteRet} {pc' : ClientPc}
    {pd' : PendingData}
    (h : BoxesInv ⟨.append s m ret, pd, box⟩ turn (ClientPc.append s m ret).flushing x) (hv : m.Valid)
    (hfit : (box s).inb.localIndex + m.words.length ≤ INPB_SIZE)
    (hother : ∀ s', s' ≠ s → x'.todo s' = x.todo s') (hans : x'.ans = x.ans)
    (htodo : ∀ t, x.todo s = t ++ ret.sending m → x'.todo s = t ++ [m])
    (hsend : ∀ s', pc'.sending s' = []) (hfl : ∀ s', s' ≠ s → pc'.flushing s' = none)
    (hfs : pc'.flushing s = none ∨ pc'.flushing s = some .enter) :
    BoxesInv ⟨pc', pd', Function.update box s { box s with inb := (box s).inb.append m.words }⟩ turn
      pc'.flushing x' := by
  refine h.at s ?_ ?_
  · intro s' hne
    refine ⟨hother s' hne, by rw [hans], Function.update_of_ne hne _ _, ?_, rfl, hfl s' hne⟩
    rw [hsend s']
    exact (if_neg hne).symm
  · obtain ⟨t, ht, hbox⟩ := h s
    have hself : (ClientPc.append s m ret).sending s = ret.sending m := if_pos rfl
    rw [hself] at ht
    refine ⟨t ++ [m], by rw [htodo t ht, hsend s, List.append_nil], ?_⟩
    have hb := BoxInv.append hbox hv hfit
    simp only [Function.update_self, hans]
    rcases hfs with hnone | henter
    · rw [hnone]
      exact hb
    · rw [henter]
      exact hb.enterFlush

theorem clientStep_append {s : ℕ} {m : Msg} {ret : WriteRet} (hn : f.table.nservers = n)
    (h : ClientInv n ⟨.append s m ret, pd, box⟩ turn (ClientPc.append s m ret).flushing (f.session c))
    (hstep : clientStep n c ⟨.append s m ret, pd, box⟩ = .ok (cl', evs)) :
    Follows c f evs (ClientInv n cl' turn cl'.pc.flushing) := by
  have hfit := h.room s m ret rfl
  have hpc := h.pc
  simp only [clientStep, Except.ok.injEq] at hstep
  cases ret with
  | request =>
      cases hstep
      obtain ⟨hv, hreq, rfl, hroom, hwin⟩ := hpc
      have hpd : PdRep pd _ _ := h.pend
      refine follows_issue (by rw [Fifo.owner_of_isRequest hreq, hn]) ⟨?_, ?_, trivial, by simp⟩
      · refine h.box.append hv hfit (fun s' hne => Function.update_of_ne hne _ _) rfl ?_ (fun _ => rfl)
          (fun _ _ => rfl) (Or.inl rfl)
        intro t ht
        simp [Session.issue, ht, WriteRet.sending]
      · show PdRep (pd.push _) _ _
        have hunread : ((f.session c).issue (hashGetServer n m.key) m).unread.map Prod.fst
            = (f.session c).unread.map Prod.fst ++ [hashGetServer n m.key] := by
          simp [Session.issue, hreq]
        rw [hunread]
        refine hpd.push ?_ hwin
        rw [List.length_map, List.length_map]
        exact hroom
  | release forceFlush =>
      cases hstep
      obtain ⟨hv, -⟩ := hpc
      refine follows_nil ⟨?_, ?_, ?_, ?_⟩
      · refine h.box.append hv hfit (fun _ _ => rfl) rfl (fun t ht => ht) ?_ ?_ ?_
        · intro s'
          cases forceFlush <;> rfl
        · intro s' hne
          cases forceFlush
          · rfl
          · exact if_neg hne
        · cases forceFlush
          · exact Or.inl rfl
          · exact Or.inr (if_pos rfl)
      · cases forceFlush <;> exact h.pend
      · cases forceFlush <;> trivial
      · cases forceFlush <;> simp
  | doall d =>
      cases hstep
      obtain ⟨q, hq, hm, rfl, hwin⟩ := hpc
      obtain ⟨hpd, hd⟩ := h.pend
      obtain ⟨hv, hreq⟩ := hd.valid q (List.mem_of_getElem? hq) m hm
      have hs : hashGetServer n q.key = f.owner m := by
        rw [Fifo.owner_of_isRequest hreq, hn, HashQuery.key_of_msg hm]
      refine follows_issue hs ⟨?_, ⟨hpd, hd.push hq hm hwin⟩, trivial, by simp⟩
      refine h.box.append hv hfit (fun s' hne => Function.update_of_ne hne _ _) rfl ?_ (fun _ => rfl)
        (fun _ _ => rfl) (Or.inl rfl)
      intro t ht
      simp [Session.issue, ht, WriteRet.sending]

/-- The effect of `outb_read` taking a response of server `s` on the boxes. -/
theorem BoxesInv.take {x x' : Session} {s : ℕ} {blocking : Bool} {ret : ReadRet} {pc' : ClientPc}
    {pd' : PendingData} {b' : OutputBuffer} {v : ℕ} {as : List (Msg × ℕ)}
    (h : BoxesInv ⟨.take s blocking ret, pd, box⟩ turn (ClientPc.take s blocking ret).flushing x)
    (htake : outbReadTake (box s).out = (b', some v)) (htodo : x'.todo = x.todo)
    (hans : x'.ans = Function.update x.ans s as) (has : (x.ans s).map Prod.snd = v :: as.map Prod.snd)
    (hsend : pc'.sending = fun _ => []) (hfl : pc'.flushing = fun _ => none) :
    BoxesInv ⟨pc', pd', Function.update box s { box s with out := b' }⟩ turn pc'.flushing x' := by
  refine h.at s ?_ ?_
  · intro s' hne
    refine ⟨by rw [htodo], by rw [hans, Function.update_of_ne hne], Function.update_of_ne hne _ _,
      congrFun hsend s', rfl, congrFun hfl s'⟩
  · obtain ⟨t, ht, hbox⟩ := h s
    obtain ⟨ans', heq, hbox'⟩ := hbox.readTake htake
    rw [has] at heq
    refine ⟨t, by rw [htodo, ht]; exact congrArg (t ++ ·) (congrFun hsend s).symm, ?_⟩
    simp only [Function.update_self, hans, hfl]
    rw [(List.cons_eq_cons.mp heq).2]
    exact hbox'

theorem clientStep_take {s : ℕ} {blocking : Bool} {ret : ReadRet} (hmatch : (f.session c).Match)
    (h : ClientInv n ⟨.take s blocking ret, pd, box⟩ turn (ClientPc.take s blocking ret).flushing
      (f.session c))
    (hstep : clientStep n c ⟨.take s blocking ret, pd, box⟩ = .ok (cl', evs)) :
    Follows c f evs (ClientInv n cl' turn cl'.pc.flushing) := by
  simp only [clientStep] at hstep
  split at hstep
  · cases hstep
    exact follows_nil (clientStep_take_none h)
  · next b' v htake =>
    obtain ⟨⟨m, unread, hun⟩, hret⟩ := h.pc
    obtain ⟨t, -, hbox⟩ := h.box s
    obtain ⟨ans', hans, -⟩ := hbox.readTake htake
    obtain ⟨as, rfl, hread⟩ := Session.read_of_match hmatch hun hans
    simp only [Except.ok.injEq] at hstep
    cases ret with
    | window m' =>
        cases hstep
        have hpd : PdRep pd _ _ := h.pend
        obtain ⟨hv, hreq, hroom⟩ := hret
        refine follows_read hread ⟨h.box.take htake rfl rfl hans rfl rfl, ?_, ⟨hv, hreq, ?_⟩, by simp⟩
        · show PdRep (pd.store s v) _ _
          rw [hun, List.map_cons] at hpd
          rw [List.map_append]
          exact hpd.store v
        · rw [Session.Room, hun, List.length_cons] at hroom
          show ((f.session c).ready ++ [((s, m), v)]).length + unread.length < MAX_PENDING_SIZE
          rw [List.length_append, List.length_singleton]
          omega
    | getNext =>
        have hpd : PdRep pd _ _ := h.pend
        have hready : (f.session c).ready = [] := hret
        rw [hun, hready, List.map_cons, List.map_nil] at hpd
        obtain ⟨hval, hpd'⟩ := (hpd.store v).take
        cases hstep
        have hv : (pd.store s v).take.1 = v := hval
        simp only [Client.setOut, hv]
        refine follows_read_got hread (by rw [hready]; rfl) ?_
        exact ⟨h.box.take htake rfl rfl hans rfl rfl, hpd', trivial, by simp⟩
    | doall d =>
        obtain ⟨hpd, hd⟩ := h.pend
        cases hstep
        refine follows_read_got hread (by rw [hd.ready]; rfl) ?_
        exact ⟨h.box.take htake rfl rfl hans rfl rfl, ⟨hpd, hd.store hun v _⟩, trivial, by simp⟩
    | drain d =>
        obtain ⟨hpd, hd⟩ := h.pend
        cases hstep
        refine follows_read_got hread (by rw [hd.ready]; rfl) ?_
        exact ⟨h.box.take htake rfl rfl hans rfl rfl, ⟨hpd, hd.store hun v _⟩, hret, by simp⟩

theorem clientStep_drain {d : Doall} (hn : f.table.nservers = n)
    (h : ClientInv n ⟨.drain d, pd, box⟩ turn (ClientPc.drain d).flushing (f.session c))
    (hstep : clientStep n c ⟨.drain d, pd, box⟩ = .ok (cl', evs)) :
    Follows c f evs (ClientInv n cl' turn cl'.pc.flushing) := by
  obtain ⟨hpd, hd⟩ := h.pend
  have hi : d.i = d.queries.length := h.pc
  simp only [clientStep] at hstep
  split at hstep
  · next hlt =>
    cases hstep
    obtain ⟨r, unread, hun⟩ := List.exists_cons_of_ne_nil (hd.unread_ne_nil hi hlt)
    rw [hd.nextServer hun]
    exact follows_nil ⟨h.box.goto rfl rfl, h.pend, ⟨⟨r.2, unread, hun⟩, hi⟩, by simp⟩
  · next hge =>
    cases hstep
    obtain ⟨hun, hlen⟩ := hd.unread_nil hi hge
    refine ⟨f, ?_, rfl, fun _ _ => rfl, h.box.goto rfl rfl, ?_, trivial, by simp⟩
    · have hhist := hd.history
      rw [← hn] at hhist
      simp [Fifo.replay, Runs.replay, Fifo.apply, hlen, hhist, hun, hd.ready]
    · show PdRep pd _ _
      rw [hun, hd.ready]
      exact hpd

/-- **A step of a client keeps its invariant**, and its session follows the events reported. -/
theorem clientStep_inv {cl : Client} (hmatch : (f.session c).Match) (hn : f.table.nservers = n)
    (h : ClientInv n cl turn cl.pc.flushing (f.session c))
    (hstep : clientStep n c cl = .ok (cl', evs)) :
    Follows c f evs (ClientInv n cl' turn cl'.pc.flushing) := by
  have hnil : (evs = [] ∧ ClientInv n cl' turn cl'.pc.flushing (f.session c)) →
      Follows c f evs (ClientInv n cl' turn cl'.pc.flushing) := by
    rintro ⟨rfl, hcl⟩
    exact follows_nil hcl
  obtain ⟨pc, pd, box⟩ := cl
  cases pc with
  | idle => cases hstep
  | window m => exact hnil (clientStep_window h hstep)
  | write s m ret => exact hnil (clientStep_write h hstep)
  | append s m ret => exact clientStep_append hn h hstep
  | flush s pc ret => exact hnil (clientStep_flush h hstep)
  | load s blocking ret => exact hnil (clientStep_load h hstep)
  | take s blocking ret => exact clientStep_take hmatch h hstep
  | doall d => exact hnil (clientStep_doall h hstep)
  | flushAll d s => exact hnil (clientStep_flushAll h hstep)
  | drain d => exact clientStep_drain hn h hstep

/-! ### Calls -/

theorem startRequest_inv {m : Msg} (hv : m.Valid) (hreq : m.isRequest = true)
    (h : ClientInv n ⟨.idle, pd, box⟩ turn (ClientPc.idle).flushing (f.session c)) :
    ClientInv n (startRequest ⟨.idle, pd, box⟩ m) turn
      (startRequest ⟨.idle, pd, box⟩ m).pc.flushing (f.session c) := by
  have hpd : PdRep pd _ _ := h.pend
  unfold startRequest
  split
  · exact h
  · next hlt =>
    refine ⟨h.box.goto rfl rfl, h.pend, ⟨hv, hreq, ?_⟩, by simp⟩
    have hlt' : ¬ sub64 pd.pendingIndex pd.rdIndex ≥ MAX_PENDING_SIZE := hlt
    rw [hpd.pending_sub, List.length_map, List.length_map] at hlt'
    exact Nat.lt_of_not_le hlt'

theorem takeValue_inv
    (h : ClientInv n ⟨.idle, pd, box⟩ turn (ClientPc.idle).flushing (f.session c))
    (hne : pd.rdIndex ≠ pd.wrIndex) :
    Follows c f (takeValue c ⟨.idle, pd, box⟩).2
      (ClientInv n (takeValue c ⟨.idle, pd, box⟩).1 turn
        (takeValue c ⟨.idle, pd, box⟩).1.pc.flushing) := by
  have hpd : PdRep pd _ _ := h.pend
  cases hready : (f.session c).ready with
  | nil =>
      rw [hready] at hpd
      exact absurd (hpd.vals_nil_iff.mpr rfl) hne
  | cons a ready =>
      rw [hready, List.map_cons] at hpd
      obtain ⟨hv, hpd'⟩ := hpd.take
      simp only [takeValue, hv]
      exact follows_got hready rfl ⟨h.box, hpd', trivial, by simp⟩

theorem sendReleaseMsg_inv {ptr : ℕ} {msg : ℕ → Msg} {forceFlush : Bool}
    (hmsg : ∀ e, (msg e).isRequest = false ∧ (e < 2 ^ 60 → (msg e).Valid) ∧
      f.owner (msg e) = hashGetServer f.table.nservers (f.table.mem.elem e).key)
    (h : ClientInv n ⟨.idle, pd, box⟩ turn (ClientPc.idle).flushing (f.session c))
    (hstep : sendReleaseMsg f.table c ⟨.idle, pd, box⟩ ptr msg forceFlush = .ok (cl', evs)) :
    Follows c f evs (ClientInv n cl' turn cl'.pc.flushing) := by
  simp only [sendReleaseMsg] at hstep
  split at hstep
  · next hassert =>
    split at hstep
    · cases hstep
      have hlt : sub64 ptr sizeofElem < 2 ^ 60 := hassert ▸ operandOf_lt _
      obtain ⟨hreq, hv, hs⟩ := hmsg (sub64 ptr sizeofElem)
      refine follows_issue hs.symm ⟨?_, ?_, ⟨hv hlt, hreq⟩, by simp⟩
      · rw [← hs]
        refine h.box.at (f.owner (msg (sub64 ptr sizeofElem))) ?_ ?_
        · intro s' hne
          exact ⟨Function.update_of_ne hne _ _, rfl, rfl, if_neg hne, rfl, rfl⟩
        · obtain ⟨tl, htl, hbox⟩ := h.box (f.owner (msg (sub64 ptr sizeofElem)))
          refine ⟨tl, ?_, hbox⟩
          have htl' : (f.session c).todo (f.owner (msg (sub64 ptr sizeofElem))) = tl := by
            rw [htl]
            exact List.append_nil tl
          simp [Session.issue, ClientPc.sending, WriteRet.sending, htl']
      · show PdRep pd _ _
        have hpd : PdRep pd _ _ := h.pend
        simpa [Session.issue, hreq] using hpd
    · cases hstep
  · cases hstep

/-- **A call keeps the invariant of an idle client**, if the caller keeps its promises. -/
theorem startCall_inv {cl : Client} {k : Call} (hidle : cl.pc = .idle) (hok : k.Ok cl)
    (h : ClientInv n cl turn cl.pc.flushing (f.session c))
    (hstep : startCall f.table c cl k = .ok (cl', evs)) :
    Follows c f evs (ClientInv n cl' turn cl'.pc.flushing) := by
  obtain ⟨pc, pd, box⟩ := cl
  obtain rfl : pc = .idle := hidle
  have hpd : PdRep pd _ _ := h.pend
  cases k with
  | lookup key =>
      cases hstep
      exact follows_nil (startRequest_inv hok rfl h)
  | insert key size =>
      cases hstep
      obtain ⟨hkey, hpos, hlt⟩ := hok
      have hword := wordOfInt_ne_zero (le_trans (by norm_num) hpos.le) hlt hpos.ne'
      exact follows_nil (startRequest_inv ⟨hkey, hword⟩ rfl h)
  | tryGetNext =>
      simp only [startCall, Except.ok.injEq] at hstep
      split at hstep
      · cases hstep
        exact follows_nil h
      · next hne =>
        have hv := takeValue_inv h hne
        rw [hstep] at hv
        exact hv
  | getNext =>
      simp only [startCall, Except.ok.injEq] at hstep
      split at hstep
      · cases hstep
        exact follows_nil h
      · next hpend =>
        split at hstep
        · next heq =>
          cases hstep
          have hready : (f.session c).ready = [] := List.map_eq_nil_iff.mp (hpd.vals_nil_iff.mp heq)
          cases hun : (f.session c).unread with
          | nil =>
              rw [hun, hready] at hpd
              exact absurd (hpd.all_nil_iff.mpr ⟨rfl, rfl⟩) hpend
          | cons r unread =>
              rw [hun, List.map_cons] at hpd
              rw [hpd.nextServer]
              exact follows_nil ⟨h.box.goto rfl rfl, h.pend, ⟨⟨r.2, unread, hun⟩, hready⟩, by simp⟩
        · next hne =>
          have hv := takeValue_inv h hne
          rw [hstep] at hv
          exact hv
  | release ptr =>
      have hmsg : ∀ e, (Msg.release e).isRequest = false ∧ (e < 2 ^ 60 → (Msg.release e).Valid) ∧
          f.owner (.release e) = hashGetServer f.table.nservers (f.table.mem.elem e).key :=
        fun e => ⟨rfl, fun he => he, rfl⟩
      rw [startCall] at hstep
      exact sendReleaseMsg_inv hmsg h hstep
  | markReady ptr =>
      have hmsg : ∀ e, (Msg.markReady e).isRequest = false ∧ (e < 2 ^ 60 → (Msg.markReady e).Valid) ∧
          f.owner (.markReady e) = hashGetServer f.table.nservers (f.table.mem.elem e).key :=
        fun e => ⟨rfl, fun he => he, rfl⟩
      rw [startCall] at hstep
      exact sendReleaseMsg_inv hmsg h hstep
  | doall queries =>
      cases hstep
      obtain ⟨hrd, hqs⟩ := hok
      obtain ⟨hready, hun⟩ := hpd.all_nil_iff.mp hrd
      have hready' := List.map_eq_nil_iff.mp hready
      have hun' := List.map_eq_nil_iff.mp hun
      refine follows_nil ⟨h.box.goto rfl rfl, ⟨?_, doallRep_start hready' hun' ?_⟩, trivial, by simp⟩
      · rw [hready, hun] at hpd
        exact hpd
      · intro q hq m hm
        obtain ⟨hkey, hsize⟩ := hqs q hq
        unfold HashQuery.msg at hm
        split at hm
        · cases hm
          exact ⟨hkey, rfl⟩
        · split at hm
          · next hins =>
            cases hm
            obtain ⟨hpos, hlt⟩ := hsize hins
            refine ⟨⟨hkey, ?_⟩, rfl⟩
            unfold wordOfInt
            omega
          · cases hm

end

end SmpHashTable
