import SmpHashTable.System

/-!
# What the message passing is for

An abstract system without buffers: between a client and a server there are two queues, one of
messages not yet executed and one of responses not yet read, and a client has a queue of requests in
the order it made them.  A log of the real system is replayed here event by event; an event that
these queues do not allow makes the replay fail.

What a replay says about its log is proved at the end: servers execute messages in the order they
were issued, and the values a client gets are the responses to its requests, in order.
-/

namespace SmpHashTable

/-- A request and the server it went to. -/
abbrev Req := ℕ × Msg

/-- One client's requests and what became of them. -/
structure Session where
  /-- Messages sent to a server and not yet executed. -/
  todo : ℕ → List Msg
  /-- Responses of a server not yet read. -/
  ans : ℕ → List (Msg × ℕ)
  /-- Requests whose response has not been read. -/
  unread : List Req
  /-- Responses read and not yet handed out. -/
  ready : List (Req × ℕ)
  /-- Responses handed out. -/
  done : List (Req × ℕ)

namespace Session

def empty : Session := ⟨fun _ => [], fun _ => [], [], [], []⟩

def issue (x : Session) (s : ℕ) (m : Msg) : Session :=
  { x with
    todo := Function.update x.todo s (x.todo s ++ [m])
    unread := if m.isRequest then x.unread ++ [(s, m)] else x.unread }

/-- The oldest message for `s` is executed. -/
def exec (x : Session) (s : ℕ) (m : Msg) (rest : List Msg) (resp : Option ℕ) : Session :=
  { x with
    todo := Function.update x.todo s rest
    ans := match resp with
      | some v => Function.update x.ans s (x.ans s ++ [(m, v)])
      | none => x.ans }

/-- The response of `s` to the oldest unread request is read. -/
def read (x : Session) (s v : ℕ) : Option Session :=
  match x.unread, x.ans s with
  | r :: unread, a :: as =>
      if r.1 = s ∧ a = (r.2, v) then
        some { x with
          unread := unread, ans := Function.update x.ans s as, ready := x.ready ++ [(r, v)] }
      else none
  | _, _ => none

/-- The oldest response read is handed out. -/
def got (x : Session) (v : ℕ) : Option Session :=
  match x.ready with
  | a :: ready => if a.2 = v then some { x with ready := ready, done := x.done ++ [a] } else none
  | [] => none

/-- Requests and values as `smp_hash_doall` sees them. -/
def pairs (n : ℕ) (queries : List HashQuery) (values : List ℕ) : List ((ℕ × Option Msg) × ℕ) :=
  (queries.map fun q => (hashGetServer n q.key, q.msg)).zip values

def history (x : Session) : List ((ℕ × Option Msg) × ℕ) :=
  x.done.map fun a => ((a.1.1, some a.1.2), a.2)

end Session

/-- The message that gives back the pointer `v` returned for a request. -/
def handleOf : Msg → ℕ → Option Msg
  | .lookup _, v => if v = 0 then none else some (.release (v - sizeofElem))
  | .insert _ _, v => if v = 0 then none else some (.markReady (v - sizeofElem))
  | _, _ => none

/-- The abstract system: the table, the sessions of the clients, and the handles they hold, each as
the message that will give it back. -/
structure Fifo where
  table : Table
  session : ℕ → Session
  held : List Msg

namespace Fifo

def init (t : Table) : Fifo := ⟨t, fun _ => Session.empty, []⟩

def setSession (f : Fifo) (c : ℕ) (x : Session) : Fifo :=
  { f with session := Function.update f.session c x }

/-- The server a message is for: the owner of its key, or of the key of its element. -/
def owner (f : Fifo) : Msg → ℕ
  | .lookup key => hashGetServer f.table.nservers key
  | .insert key _ => hashGetServer f.table.nservers key
  | .release e => hashGetServer f.table.nservers (f.table.mem.elem e).key
  | .markReady e => hashGetServer f.table.nservers (f.table.mem.elem e).key

/-- The abstract state after an event. -/
def apply (f : Fifo) : Event → Option Fifo
  | .issue c s m =>
      if s = f.owner m then
        some { f.setSession c ((f.session c).issue s m) with held := f.held.erase m }
      else none
  | .exec s c op o resp removed =>
      match (f.session c).todo s, serverOp f.table s o op with
      | m :: rest, .ok (t, resp', removed') =>
          if m.op = op ∧ resp' = resp ∧ removed' = removed then
            some { f.setSession c ((f.session c).exec s m rest resp) with table := t }
          else none
      | _, _ => none
  | .read c s v => ((f.session c).read s v).map (f.setSession c)
  | .got c v =>
      match (f.session c).ready.head? with
      | some a => ((f.session c).got v).map fun x =>
          { f.setSession c x with held := f.held ++ (handleOf a.1.2 v).toList }
      | none => none
  | .doallDone c queries values =>
      if queries.length = values.length ∧
          Session.pairs f.table.nservers queries values <:+ (f.session c).history ∧
          (f.session c).ready = [] ∧ (f.session c).unread = [] then some f
      else none

def replay (f : Fifo) (log : List Event) : Option Fifo := Runs.replay apply f log

@[simp] theorem setSession_self (f : Fifo) (c : ℕ) (x : Session) : (f.setSession c x).session c = x := by
  simp [setSession]

theorem setSession_of_ne (f : Fifo) {c c' : ℕ} (x : Session) (h : c' ≠ c) :
    (f.setSession c x).session c' = f.session c' := by
  simp [setSession, h]

end Fifo

/-! ### Requests and responses match -/

/-- The unread requests of a server are those it has answered followed by those still to execute. -/
def Session.Match (x : Session) : Prop :=
  ∀ s, x.unread.filter (fun r => r.1 = s)
    = ((x.ans s).map Prod.fst ++ (x.todo s).filter Msg.isRequest).map fun m => (s, m)

theorem Session.empty_match : Session.empty.Match := fun _ => rfl

namespace Session.Match

variable {x : Session}

theorem issue (h : x.Match) (s : ℕ) (m : Msg) : (x.issue s m).Match := by
  intro s'
  have hs' := h s'
  by_cases hm : m.isRequest = true
  · by_cases heq : s' = s
    · subst heq
      simp only [Session.issue, hm, if_true, List.filter_append, Function.update_self, hs']
      simp [hm]
    · have hne : ¬ s = s' := fun he => heq he.symm
      simp only [Session.issue, hm, if_true, List.filter_append, hs',
        Function.update_of_ne heq]
      simp [hne]
  · by_cases heq : s' = s
    · subst heq
      have hnone : List.filter Msg.isRequest [m] = [] := List.filter_cons_of_neg hm
      simp only [Session.issue, if_neg hm, Function.update_self, hs', List.filter_append, hnone,
        List.append_nil]
    · simp only [Session.issue, if_neg hm, hs', Function.update_of_ne heq]

/-- A request is answered, and nothing else is. -/
theorem exec (h : x.Match) {s : ℕ} {m : Msg} {rest : List Msg} {resp : Option ℕ}
    (htodo : x.todo s = m :: rest) (hresp : resp.isSome = m.isRequest) :
    (x.exec s m rest resp).Match := by
  intro s'
  have hs' := h s'
  by_cases heq : s' = s
  · subst heq
    rw [htodo] at hs'
    cases resp with
    | some v =>
        have hm : m.isRequest = true := hresp.symm
        simp only [Session.exec, Function.update_self, hs']
        simp [hm]
    | none =>
        have hm : m.isRequest = false := hresp.symm
        simp only [Session.exec, Function.update_self, hs']
        simp [hm]
  · cases resp with
    | some v => simp only [Session.exec, Function.update_of_ne heq, hs']
    | none => simp only [Session.exec, Function.update_of_ne heq, hs']

theorem read (h : x.Match) {s v : ℕ} {x' : Session} (hread : x.read s v = some x') : x'.Match := by
  unfold Session.read at hread
  split at hread
  · next r unread a as hun hans =>
    split at hread
    · next hc =>
      obtain ⟨hr, ha⟩ := hc
      cases hread
      intro s'
      have hs' := h s'
      rw [hun] at hs'
      by_cases heq : s' = s
      · subst heq
        rw [hans, List.filter_cons_of_pos (by simpa using hr), List.map_cons, List.cons_append,
          List.map_cons] at hs'
        simp only [Function.update_self]
        exact (List.cons_eq_cons.mp hs').2
      · have hne : ¬ r.1 = s' := fun he => heq (he.symm.trans hr)
        rw [List.filter_cons_of_neg (by simpa using hne)] at hs'
        simp only [Function.update_of_ne heq]
        exact hs'
    · cases hread
  · cases hread

theorem got (h : x.Match) {v : ℕ} {x' : Session} (hgot : x.got v = some x') : x'.Match := by
  unfold Session.got at hgot
  split at hgot
  · split at hgot
    · cases hgot
      exact h
    · cases hgot
  · cases hgot

/-- The oldest unread request is the one its server answered first, if it has answered. -/
theorem head (h : x.Match) {r : Req} {unread : List Req} (hun : x.unread = r :: unread)
    {a : Msg × ℕ} {as : List (Msg × ℕ)} (hans : x.ans r.1 = a :: as) : a.1 = r.2 := by
  have hs := h r.1
  rw [hun, hans, List.filter_cons_of_pos (by simp), List.map_cons, List.cons_append,
    List.map_cons] at hs
  exact (congrArg Prod.snd (List.cons_eq_cons.mp hs).1).symm

/-- The number of unread requests of a server. -/
theorem count (h : x.Match) (s : ℕ) :
    (x.unread.map Prod.fst).count s = (x.ans s).length + ((x.todo s).filter Msg.isRequest).length := by
  have hs := congrArg List.length (h s)
  rw [List.length_map, List.length_append, List.length_map] at hs
  rw [← hs, List.count, List.countP_map, List.countP_eq_length_filter]
  congr 1

end Session.Match

/-- Only requests are answered. -/
theorem serverOp_resp {t t' : Table} {s : ℕ} {o : Oracle} {op : Op} {resp : Option ℕ}
    {removed : List Removal} (h : serverOp t s o op = .ok (t', resp, removed)) :
    resp.isSome = op.isRequest ∧ t'.nservers = t.nservers := by
  cases op with
  | lookup key =>
      simp only [serverOp] at h
      split at h
      · split at h <;> cases h <;> exact ⟨rfl, rfl⟩
      · cases h
        exact ⟨rfl, rfl⟩
  | insert key size =>
      obtain ⟨r, -, h⟩ := Outcome.bind_ok.mp h
      cases h
      exact ⟨rfl, rfl⟩
  | release e =>
      obtain ⟨m, -, h⟩ := Outcome.bind_ok.mp h
      cases h
      exact ⟨rfl, rfl⟩

/-! ### What a log says -/

/-- The messages client `c` issued to server `s`, in order. -/
def issued (c s : ℕ) (log : List Event) : List Msg := log.filterMap fun
  | .issue c' s' m => if c' = c ∧ s' = s then some m else none
  | _ => none

theorem issued_append (c s : ℕ) (log log' : List Event) :
    issued c s (log ++ log') = issued c s log ++ issued c s log' := List.filterMap_append ..

/-- The operations server `s` executed for client `c`, in order. -/
def executed (c s : ℕ) (log : List Event) : List Op := log.filterMap fun
  | .exec s' c' op _ _ _ => if c' = c ∧ s' = s then some op else none
  | _ => none

/-- The responses server `s` computed for client `c`, in order, with their operations. -/
def answers (c s : ℕ) (log : List Event) : List (Op × ℕ) := log.filterMap fun
  | .exec s' c' op _ resp _ => if c' = c ∧ s' = s then resp.map fun v => (op, v) else none
  | _ => none

/-- The responses of server `s` that client `c` read, in order. -/
def readFrom (c s : ℕ) (log : List Event) : List ℕ := log.filterMap fun
  | .read c' s' v => if c' = c ∧ s' = s then some v else none
  | _ => none

/-- The requests of client `c` that were accepted, in order. -/
def accepted (c : ℕ) (log : List Event) : List Req := log.filterMap fun
  | .issue c' s m => if c' = c ∧ m.isRequest then some (s, m) else none
  | _ => none

/-- The values client `c` obtained, in order. -/
def obtained (c : ℕ) (log : List Event) : List ℕ := log.filterMap fun
  | .got c' v => if c' = c then some v else none
  | _ => none

/-- What a log tells about the session of client `c`. -/
structure Told (c : ℕ) (x : Session) (log : List Event) : Prop where
  issued_eq : ∀ s, (issued c s log).map Msg.op = executed c s log ++ (x.todo s).map Msg.op
  accepted_eq : accepted c log = (x.done ++ x.ready).map Prod.fst ++ x.unread
  obtained_eq : obtained c log = x.done.map Prod.snd
  answers_eq : ∀ s, answers c s log =
    ((x.done ++ x.ready).filter fun a => a.1.1 = s).map (fun a => (a.1.2.op, a.2))
      ++ (x.ans s).map fun a => (a.1.op, a.2)
  read_eq : ∀ s, readFrom c s log = ((x.done ++ x.ready).filter fun a => a.1.1 = s).map Prod.snd

theorem told_empty (c : ℕ) : Told c Session.empty [] :=
  ⟨fun _ => rfl, rfl, rfl, fun _ => rfl, fun _ => rfl⟩

/-- An event of another client tells nothing. -/
theorem Told.other {c : ℕ} {x : Session} {log : List Event} (h : Told c x log) {e : Event}
    (hissued : ∀ s, issued c s [e] = []) (hexecuted : ∀ s, executed c s [e] = [])
    (hanswers : ∀ s, answers c s [e] = []) (haccepted : accepted c [e] = [])
    (hobtained : obtained c [e] = []) (hread : ∀ s, readFrom c s [e] = []) : Told c x (log ++ [e]) := by
  simp only [issued, executed, answers] at hissued hexecuted hanswers
  simp only [accepted, obtained, readFrom] at haccepted hobtained hread
  refine ⟨fun s => ?_, ?_, ?_, fun s => ?_, fun s => ?_⟩
  · simp only [issued, executed, List.filterMap_append, hissued, hexecuted, List.append_nil]
    exact h.issued_eq s
  · simp only [accepted, List.filterMap_append, haccepted, List.append_nil]
    exact h.accepted_eq
  · simp only [obtained, List.filterMap_append, hobtained, List.append_nil]
    exact h.obtained_eq
  · simp only [answers, List.filterMap_append, hanswers, List.append_nil]
    exact h.answers_eq s
  · simp only [readFrom, List.filterMap_append, hread, List.append_nil]
    exact h.read_eq s

section

variable {c : ℕ} {x x' : Session} {log : List Event}

theorem Told.issue (h : Told c x log) (s : ℕ) (m : Msg) :
    Told c (x.issue s m) (log ++ [.issue c s m]) := by
  refine ⟨fun s' => ?_, ?_, ?_, fun s' => ?_, fun s' => ?_⟩
  · have hs := h.issued_eq s'
    simp only [issued, executed] at hs
    by_cases heq : s' = s
    · subst heq
      simp [issued, executed, Session.issue, hs]
    · have hne : ¬ s = s' := fun he => heq he.symm
      simp [issued, executed, Session.issue, hs, heq, hne]
  · have ha := h.accepted_eq
    simp only [accepted] at ha
    by_cases hm : m.isRequest = true
    · simp [accepted, Session.issue, hm, ha]
    · simp [accepted, Session.issue, hm, ha]
  · have ho := h.obtained_eq
    simp only [obtained] at ho
    simp [obtained, Session.issue, ho]
  · have hs := h.answers_eq s'
    simp only [answers] at hs
    simp [answers, Session.issue, hs]
  · have hr := h.read_eq s'
    simp only [readFrom] at hr
    simp [readFrom, Session.issue, hr]

theorem Told.exec (h : Told c x log) {s : ℕ} {m : Msg} {rest : List Msg}
    (htodo : x.todo s = m :: rest) (o : Oracle) (resp : Option ℕ) (removed : List Removal) :
    Told c (x.exec s m rest resp) (log ++ [.exec s c m.op o resp removed]) := by
  refine ⟨fun s' => ?_, ?_, ?_, fun s' => ?_, fun s' => ?_⟩
  · have hs := h.issued_eq s'
    simp only [issued, executed] at hs
    by_cases heq : s' = s
    · subst heq
      rw [htodo] at hs
      simp [issued, executed, Session.exec, hs]
    · have hne : ¬ s = s' := fun he => heq he.symm
      simp [issued, executed, Session.exec, hs, heq, hne]
  · have ha := h.accepted_eq
    simp only [accepted] at ha
    simp [accepted, Session.exec, ha]
  · have ho := h.obtained_eq
    simp only [obtained] at ho
    simp [obtained, Session.exec, ho]
  · have hs := h.answers_eq s'
    simp only [answers] at hs
    cases resp with
    | none => simp [answers, Session.exec, hs]
    | some v =>
        by_cases heq : s' = s
        · subst heq
          simp [answers, Session.exec, hs]
        · have hne : ¬ s = s' := fun he => heq he.symm
          simp [answers, Session.exec, hs, heq, hne]
  · have hr := h.read_eq s'
    simp only [readFrom] at hr
    simp [readFrom, Session.exec, hr]

theorem Told.read (h : Told c x log) {s v : ℕ} (hread : x.read s v = some x') :
    Told c x' (log ++ [.read c s v]) := by
  unfold Session.read at hread
  split at hread
  · next r unread a as hun hans =>
    split at hread
    · next hc =>
      obtain ⟨hr, ha⟩ := hc
      cases hread
      refine ⟨fun s' => ?_, ?_, ?_, fun s' => ?_, fun s' => ?_⟩
      · have hs := h.issued_eq s'
        simp only [issued, executed] at hs
        simp [issued, executed, hs]
      · have hacc := h.accepted_eq
        simp only [accepted] at hacc
        simp [accepted, hacc, hun]
      · have ho := h.obtained_eq
        simp only [obtained] at ho
        simp [obtained, ho]
      · have hs := h.answers_eq s'
        simp only [answers] at hs
        by_cases heq : s' = s
        · subst heq
          rw [hans, ha] at hs
          simp [answers, hs, hr]
        · have hne : ¬ s = s' := fun he => heq he.symm
          simp [answers, hs, hr, heq, hne]
      · have hs := h.read_eq s'
        simp only [readFrom] at hs
        by_cases heq : s = s'
        · simp [readFrom, hs, hr, heq]
        · simp [readFrom, hs, hr, heq]
    · cases hread
  · cases hread

theorem Told.got (h : Told c x log) {v : ℕ} (hgot : x.got v = some x') :
    Told c x' (log ++ [.got c v]) := by
  unfold Session.got at hgot
  split at hgot
  · next a ready hready =>
    split at hgot
    · next hv =>
      cases hgot
      refine ⟨fun s' => ?_, ?_, ?_, fun s' => ?_, fun s' => ?_⟩
      · have hs := h.issued_eq s'
        simp only [issued, executed] at hs
        simp [issued, executed, hs]
      · have hacc := h.accepted_eq
        simp only [accepted] at hacc
        simp [accepted, hacc, hready]
      · have ho := h.obtained_eq
        simp only [obtained] at ho
        simp [obtained, ho, hv]
      · have hs := h.answers_eq s'
        simp only [answers] at hs
        simp [answers, hs, hready]
      · have hs := h.read_eq s'
        simp only [readFrom] at hs
        simp [readFrom, hs, hready]
    · cases hgot
  · cases hgot

end

/-! ### Replays -/

namespace Fifo

variable {f f' : Fifo}

theorem owner_of_isRequest {m : Msg} (h : m.isRequest = true) :
    f.owner m = hashGetServer f.table.nservers m.key := by
  cases m with
  | lookup key => rfl
  | insert key size => rfl
  | release e => cases h
  | markReady e => cases h

theorem apply_issue {c s : ℕ} {m : Msg} (h : f.apply (.issue c s m) = some f') :
    s = f.owner m ∧ f' = { f.setSession c ((f.session c).issue s m) with held := f.held.erase m } := by
  simp only [apply] at h
  split at h
  · next hs =>
    cases h
    exact ⟨hs, rfl⟩
  · cases h

theorem apply_exec {s c : ℕ} {op : Op} {o : Oracle} {resp : Option ℕ} {removed : List Removal}
    (h : f.apply (.exec s c op o resp removed) = some f') :
    ∃ m rest t, (f.session c).todo s = m :: rest ∧ serverOp f.table s o op = .ok (t, resp, removed) ∧
      m.op = op ∧ f' = { f.setSession c ((f.session c).exec s m rest resp) with table := t } := by
  simp only [apply] at h
  split at h
  · next m rest t resp' removed' htodo hop =>
    split at h
    · next hc =>
      obtain ⟨hm, rfl, rfl⟩ := hc
      cases h
      exact ⟨m, rest, t, htodo, hop, hm, rfl⟩
    · cases h
  · cases h

theorem apply_read {c s v : ℕ} (h : f.apply (.read c s v) = some f') :
    ∃ x, (f.session c).read s v = some x ∧ f' = f.setSession c x := by
  obtain ⟨x, hx, rfl⟩ := Option.map_eq_some_iff.mp h
  exact ⟨x, hx, rfl⟩

theorem apply_got {c v : ℕ} (h : f.apply (.got c v) = some f') :
    ∃ a x, (f.session c).ready.head? = some a ∧ (f.session c).got v = some x ∧
      f' = { f.setSession c x with held := f.held ++ (handleOf a.1.2 v).toList } := by
  simp only [apply] at h
  split at h
  · next a ha =>
    obtain ⟨x, hx, rfl⟩ := Option.map_eq_some_iff.mp h
    exact ⟨a, x, ha, hx, rfl⟩
  · cases h

theorem apply_doallDone {c : ℕ} {queries : List HashQuery} {values : List ℕ}
    (h : f.apply (.doallDone c queries values) = some f') :
    queries.length = values.length ∧
      Session.pairs f.table.nservers queries values <:+ (f.session c).history ∧
      (f.session c).ready = [] ∧ (f.session c).unread = [] ∧ f' = f := by
  simp only [apply] at h
  split at h
  · next hc =>
    cases h
    exact ⟨hc.1, hc.2.1, hc.2.2.1, hc.2.2.2, rfl⟩
  · cases h

theorem apply_nservers {e : Event} (h : f.apply e = some f') :
    f'.table.nservers = f.table.nservers := by
  cases e with
  | issue c s m =>
      obtain ⟨-, rfl⟩ := apply_issue h
      rfl
  | exec s c op o resp removed =>
      obtain ⟨m, rest, t, -, hop, -, rfl⟩ := apply_exec h
      exact (serverOp_resp hop).2
  | read c s v =>
      obtain ⟨x, -, rfl⟩ := apply_read h
      rfl
  | got c v =>
      obtain ⟨a, x, -, -, rfl⟩ := apply_got h
      rfl
  | doallDone c queries values =>
      obtain ⟨-, -, -, -, rfl⟩ := apply_doallDone h
      rfl

theorem apply_match {e : Event} (hm : ∀ c, (f.session c).Match) (h : f.apply e = some f') :
    ∀ c, (f'.session c).Match := by
  intro c'
  cases e with
  | issue c s m =>
      obtain ⟨-, rfl⟩ := apply_issue h
      by_cases hc : c' = c
      · subst hc
        simpa [setSession] using (hm c').issue s m
      · simpa [setSession, hc] using hm c'
  | exec s c op o resp removed =>
      obtain ⟨m, rest, t, htodo, hop, hmop, rfl⟩ := apply_exec h
      have hresp := (serverOp_resp hop).1
      rw [← hmop] at hresp
      by_cases hc : c' = c
      · subst hc
        simpa [setSession] using (hm c').exec htodo hresp
      · simpa [setSession, hc] using hm c'
  | read c s v =>
      obtain ⟨x, hx, rfl⟩ := apply_read h
      by_cases hc : c' = c
      · subst hc
        simpa using (hm c').read hx
      · simpa [setSession, hc] using hm c'
  | got c v =>
      obtain ⟨a, x, -, hx, rfl⟩ := apply_got h
      by_cases hc : c' = c
      · subst hc
        simpa [setSession] using (hm c').got hx
      · simpa [setSession, hc] using hm c'
  | doallDone c queries values =>
      obtain ⟨-, -, -, -, rfl⟩ := apply_doallDone h
      exact hm c'

theorem replay_match {f₀ : Fifo} (hm : ∀ c, (f₀.session c).Match) {log : List Event}
    (h : f₀.replay log = some f) : ∀ c, (f.session c).Match :=
  Runs.replay_history (P := fun f _ => ∀ c, (f.session c).Match) hm (fun h ha => apply_match h ha) h

theorem apply_told {e : Event} {log : List Event} (ht : ∀ c, Told c (f.session c) log)
    (h : f.apply e = some f') : ∀ c, Told c (f'.session c) (log ++ [e]) := by
  intro c'
  cases e with
  | issue c s m =>
      obtain ⟨-, rfl⟩ := apply_issue h
      by_cases hc : c' = c
      · subst hc
        simpa [setSession] using (ht c').issue s m
      · have hne : ¬ c = c' := fun he => hc he.symm
        simpa [setSession, hc] using (ht c').other (e := .issue c s m) (by simp [issued, hne])
          (by simp [executed]) (by simp [answers]) (by simp [accepted, hne]) (by simp [obtained])
          (by simp [readFrom])
  | exec s c op o resp removed =>
      obtain ⟨m, rest, t, htodo, -, rfl, rfl⟩ := apply_exec h
      by_cases hc : c' = c
      · subst hc
        simpa [setSession] using (ht c').exec htodo o resp removed
      · have hne : ¬ c = c' := fun he => hc he.symm
        simpa [setSession, hc] using (ht c').other (e := .exec s c m.op o resp removed)
          (by simp [issued]) (by simp [executed, hne]) (by simp [answers, hne]) (by simp [accepted])
          (by simp [obtained]) (by simp [readFrom])
  | read c s v =>
      obtain ⟨x, hx, rfl⟩ := apply_read h
      by_cases hc : c' = c
      · subst hc
        simpa using (ht c').read hx
      · have hne : ¬ c = c' := fun he => hc he.symm
        simpa [setSession, hc] using (ht c').other (e := .read c s v) (by simp [issued])
          (by simp [executed]) (by simp [answers]) (by simp [accepted]) (by simp [obtained])
          (by simp [readFrom, hne])
  | got c v =>
      obtain ⟨a, x, -, hx, rfl⟩ := apply_got h
      by_cases hc : c' = c
      · subst hc
        simpa [setSession] using (ht c').got hx
      · have hne : ¬ c = c' := fun he => hc he.symm
        simpa [setSession, hc] using (ht c').other (e := .got c v) (by simp [issued])
          (by simp [executed]) (by simp [answers]) (by simp [accepted]) (by simp [obtained, hne])
          (by simp [readFrom])
  | doallDone c queries values =>
      obtain ⟨-, -, -, -, rfl⟩ := apply_doallDone h
      exact (ht c').other (by simp [issued]) (by simp [executed]) (by simp [answers])
        (by simp [accepted]) (by simp [obtained]) (by simp [readFrom])

/-- **What a replayed log tells.** -/
theorem replay_told {t : Table} {log : List Event} (h : (init t).replay log = some f) (c : ℕ) :
    Told c (f.session c) log :=
  Runs.replay_history (P := fun f log => ∀ c, Told c (f.session c) log) told_empty
    (fun h ha => apply_told h ha) h c

end Fifo

/-- The `i`-th value obtained is the response to the `i`-th request accepted: with the requests to
the same server numbered, it is the response of that number. -/
theorem Told.nth {c : ℕ} {x : Session} {log : List Event} (h : Told c x log) {i v : ℕ}
    (hi : (obtained c log)[i]? = some v) :
    ∃ s m, (accepted c log)[i]? = some (s, m) ∧
      (answers c s log)[((accepted c log).take i).countP fun r => r.1 = s]? = some (m.op, v) := by
  rw [h.obtained_eq, List.getElem?_map, Option.map_eq_some_iff] at hi
  obtain ⟨a, ha, rfl⟩ := hi
  have hlt : i < x.done.length := (List.getElem?_eq_some_iff.mp ha).1
  have hall : (x.done ++ x.ready)[i]? = some a := by rw [List.getElem?_append_left hlt, ha]
  have htake : (accepted c log).take i = ((x.done ++ x.ready).take i).map Prod.fst := by
    rw [h.accepted_eq, List.map_take, List.take_append_of_le_length (by simp; omega)]
  refine ⟨a.1.1, a.1.2, ?_, ?_⟩
  · rw [h.accepted_eq, List.getElem?_append_left (by simp; omega), List.getElem?_map, hall]
    rfl
  · have hfilter := Lists.getElem?_filter_countP (p := fun b : Req × ℕ => decide (b.1.1 = a.1.1)) hall
      (by simp)
    rw [h.answers_eq, htake, List.countP_map, List.getElem?_append_left]
    · rw [List.getElem?_map]
      exact congrArg (Option.map _) hfilter
    · have hlt' := (List.getElem?_eq_some_iff.mp hfilter).1
      rwa [List.length_map]

end SmpHashTable
