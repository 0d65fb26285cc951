import SmpHashTable.CacheRefinement
import SmpHashTable.Delivery
import SmpHashTable.Lib.NumberedCache

/-!
# Batches of requests through message passing

A client that works in batches makes all requests of a batch, waits for their values, gives all handles
back and goes on with the next batch; which functions it calls for that, and how its requests, the servers'
passes and its own reads interleave, is open.  Each server then answers as a cache of numbers
(`FillingCache.Tally`) that is asked for the same requests round by round, and nothing of the interleaving is
left in the answers.
-/

namespace SmpHashTable

open FillingCache (Ask Tally Agrees Named valueOf)

/-! ### What is to be answered -/

/-- An operation as a request on the cache of its server. -/
def Op.ask : Op → Option (Ask ℕ)
  | .lookup key => some (.lookup key)
  | .insert key size => some (.insert key (elemSize size))
  | .release _ => none

/-- A request as the server reads it. -/
def Msg.ask (m : Msg) : Option (Ask ℕ) := m.op.ask

/-- The requests of a batch that server `s` of `n` executes. -/
def asksTo (n s : ℕ) (batch : List Msg) : List (Ask ℕ) :=
  (batch.filter fun m => hashGetServer n m.key = s).filterMap Msg.ask

/-- What server `s` of `n`, with room for `limit` bytes, answers to the batches. -/
def expected (limit n s : ℕ) (bs : List (List Msg)) : Tally ℕ :=
  Tally.start.rounds limit (bs.map (asksTo n s))

/-- The values obtained for the requests to server `s`. -/
def valuesAt (n s : ℕ) (bs : List (List Msg)) (vals : List ℕ) : List (Option ℕ) :=
  ((bs.flatten.zip vals).filter fun a => hashGetServer n a.1.key = s).map fun a => hitOf a.2

/-- The values of the first requests are the first values. -/
theorem valuesAt_prefix (n s : ℕ) {bs : List (List Msg)} {reqs : List Msg} {vals : List ℕ} (more : List ℕ)
    (hreqs : reqs <+: bs.flatten) (hlen : reqs.length = (vals ++ more).length) : valuesAt n s bs vals
      <+: ((reqs.zip (vals ++ more)).filter fun a => hashGetServer n a.1.key = s).map fun a => hitOf a.2 := by
  obtain ⟨rest, hrest⟩ := hreqs
  have htake : (reqs.take vals.length).length = vals.length := by
    rw [List.length_take, hlen, List.length_append]
    omega
  have hshort : bs.flatten.zip vals = (reqs.take vals.length).zip vals := by
    rw [← hrest, ← List.take_append_drop vals.length reqs, List.append_assoc, ← List.append_nil vals,
      List.zip_append (by simpa using htake)]
    simp
  have hlong : reqs.zip (vals ++ more)
      = (reqs.take vals.length).zip vals ++ (reqs.drop vals.length).zip more := by
    conv_lhs => rw [← List.take_append_drop vals.length reqs]
    exact List.zip_append htake
  rw [valuesAt, hshort, hlong]
  exact ((List.prefix_append _ _).filter _).map _

/-- What is expected, from the middle of a batch on. -/
theorem expected_of_plan {limit n s : ℕ} {bs past later : List (List Msg)} {batch : List Msg}
    (hplan : past ++ batch :: later = [] :: bs) {served more : List (Ask ℕ)}
    (hbatch : asksTo n s batch = served ++ more) :
    expected limit n s bs = (((Tally.start.rounds limit (past.map (asksTo n s))).serve limit served).serve limit
      more).settle.rounds limit (later.map (asksTo n s)) := by
  calc expected limit n s bs = Tally.start.rounds limit (([] :: bs).map (asksTo n s)) := rfl
    _ = ((Tally.start.rounds limit (past.map (asksTo n s))).serve limit (asksTo n s batch)).settle.rounds limit
          (later.map (asksTo n s)) := by
        rw [← hplan, List.map_append, List.map_cons, Tally.rounds_append]
        rfl
    _ = _ := by rw [hbatch, Tally.serve_append]

/-- What has been answered is the beginning of what is expected. -/
theorem answers_of_plan {limit n s : ℕ} {bs past later : List (List Msg)} {batch : List Msg}
    (hplan : past ++ batch :: later = [] :: bs) {served more : List (Ask ℕ)}
    (hbatch : asksTo n s batch = served ++ more) :
    ((Tally.start.rounds limit (past.map (asksTo n s))).serve limit served).answers
      <+: (expected limit n s bs).answers := by
  rw [expected_of_plan hplan hbatch]
  exact (Tally.answers_serve _ more).trans (Tally.answers_rounds (Tally.settle _) _)

/-- The requests of finished batches and of the current one come first. -/
theorem requests_of_plan {bs past later : List (List Msg)} {asked rest : List Msg}
    (hplan : past ++ (asked ++ rest) :: later = [] :: bs) :
    bs.flatten = (past.flatten ++ asked) ++ (rest ++ later.flatten) := by
  calc bs.flatten = ([] :: bs).flatten := rfl
    _ = past.flatten ++ ((asked ++ rest) ++ later.flatten) := by
        rw [← hplan, List.flatten_append, List.flatten_cons]
    _ = _ := by rw [List.append_assoc, List.append_assoc]

/-! ### Working in batches -/

/-- Where a client that works in batches stands. -/
structure Talk where
  /-- The batches it has finished. -/
  past : List (List Msg)
  /-- The requests of this batch that it has made, and those it still has to make. -/
  asked : List Msg
  rest : List Msg
  /-- The requests whose values it has not obtained. -/
  awaited : List Msg
  /-- The handles it has to give back. -/
  handles : List Msg
  later : List (List Msg)
  deriving DecidableEq

namespace Talk

def start (bs : List (List Msg)) : Talk := ⟨[], [], [], [], [], bs⟩

/-- It has obtained the values of all requests of the batch. -/
def Settled (x : Talk) : Prop := x.rest = [] ∧ x.awaited = []

instance (x : Talk) : Decidable x.Settled := inferInstanceAs (Decidable (_ ∧ _))

/-- It sends a message: the next request, or a handle once it has all values of the batch. -/
def send (x : Talk) (m : Msg) : Option Talk :=
  if m.isRequest then
    match x.rest with
    | q :: rest =>
        if q = m then some { x with asked := x.asked ++ [m], rest := rest, awaited := x.awaited ++ [m] } else none
    | [] =>
        match x.later with
        | (q :: rest) :: later =>
            if x.awaited = [] ∧ x.handles = [] ∧ q = m then
              some ⟨x.past ++ [x.asked], [m], rest, [m], [], later⟩
            else none
        | _ => none
  else if x.Settled ∧ m ∈ x.handles then some { x with handles := x.handles.erase m }
  else none

/-- It obtains a value. -/
def obtain (x : Talk) (v : ℕ) : Option Talk :=
  match x.awaited with
  | m :: awaited => some { x with awaited := awaited, handles := x.handles ++ (handleOf m v).toList }
  | [] => none

/-- Client `c` works in batches, and no other client sends anything. -/
def apply (c : ℕ) (x : Talk) : Event → Option Talk
  | .issue c' _ m => if c' = c then x.send m else none
  | .got c' v => if c' = c then x.obtain v else none
  | _ => some x

theorem send_cases {x x' : Talk} {m : Msg} (h : x.send m = some x') :
    (m.isRequest = true ∧ ∃ rest, x.rest = m :: rest ∧
      x' = { x with asked := x.asked ++ [m], rest := rest, awaited := x.awaited ++ [m] }) ∨
    (m.isRequest = true ∧ x.Settled ∧ x.handles = [] ∧ ∃ rest later, x.later = (m :: rest) :: later ∧
      x' = ⟨x.past ++ [x.asked], [m], rest, [m], [], later⟩) ∨
    (m.isRequest = false ∧ x.Settled ∧ m ∈ x.handles ∧ x' = { x with handles := x.handles.erase m }) := by
  unfold send at h
  split at h
  · next hm =>
    split at h
    · next q rest hrest =>
      split at h
      · next hq =>
        cases h
        exact Or.inl ⟨hm, rest, hq ▸ hrest, rfl⟩
      · cases h
    · next hrest =>
      split at h
      · next q rest later hlater =>
        split at h
        · next hcond =>
          obtain ⟨hawaited, hhandles, rfl⟩ := hcond
          cases h
          exact Or.inr (Or.inl ⟨hm, ⟨hrest, hawaited⟩, hhandles, rest, later, hlater, rfl⟩)
        · cases h
      · cases h
  · next hm =>
    split at h
    · next hcond =>
      cases h
      exact Or.inr (Or.inr ⟨by simpa using hm, hcond.1, hcond.2, rfl⟩)
    · cases h

/-- What server `s` has answered when it has executed the requests `done` of this batch. -/
def tally (limit n s : ℕ) (x : Talk) (done : List Msg) : Tally ℕ :=
  (Tally.start.rounds limit (x.past.map (asksTo n s))).serve limit (done.filterMap Msg.ask)

end Talk

/-! ### The client and one server -/

/-- Server `s` has executed the requests `done` of this batch, with the cache `cache`; the queue of messages to it
holds handles of earlier batches, then requests of this one. -/
structure Chatting (limit n s : ℕ) (x : Talk) (todo : List Msg) (vals : List (Option ℕ))
    (cache : FillingCache.Cache ℕ ℕ) (back reqs done : List Msg) : Prop where
  todo_eq : todo = back ++ reqs
  back_kind : ∀ m ∈ back, m.isRequest = false
  reqs_kind : ∀ m ∈ reqs, m.isRequest = true
  asked : x.asked.filter (fun m => hashGetServer n m.key = s) = done ++ reqs
  named : Named vals cache (if x.Settled then (x.tally limit n s done).settle else x.tally limit n s done)
  /-- A request of a batch comes after all handles of earlier batches. -/
  order : ¬ x.Settled → back = [] ∨ done = []
  /-- An element is being filled in this batch, or its handle is on its way. -/
  filling : ¬ x.Settled → ∀ v ∈ cache.filling, .markReady v ∈ todo ∨
    ∃ j ∈ (x.tally limit n s done).cache.filling, valueOf vals j = some v

/-- The values that server `s` has answered client `c` with. -/
def answered (c s : ℕ) (log : List Event) : List (Option ℕ) := (answers c s log).map fun a => hitOf a.2

theorem answered_append (c s : ℕ) (log log' : List Event) :
    answered c s (log ++ log') = answered c s log ++ answered c s log' := by
  rw [answered, answers, List.filterMap_append, List.map_append]
  rfl

theorem answered_exec (c s s' : ℕ) (op : Op) (o : Oracle) (resp : Option ℕ) (removed : List Removal) :
    answered c s [.exec s' c op o resp removed] = if s' = s then (resp.map hitOf).toList else [] := by
  by_cases hs : s' = s
  · cases resp with
    | none => simp [answered, answers]
    | some v => simp [answered, answers, hs]
  · simp [answered, answers, hs]

/-- Where the client `c` that works in batches stands is what the queues say. -/
structure Talk.Holds (c : ℕ) (x : Talk) (f : Fifo) : Prop where
  awaited : x.awaited = (f.session c).ready.map (fun a => a.1.2) ++ (f.session c).unread.map Prod.snd
  handles : x.handles = f.held
  held_kind : ∀ m ∈ f.held, m.isRequest = false

/-- The client `c` that works in batches and the queues. -/
structure Chat (limit c : ℕ) (x : Talk) (f : Fifo) (log : List Event) : Prop where
  silent : ∀ c', c' ≠ c → f.session c' = Session.empty
  holds : x.Holds c f
  matched : ∀ c, (f.session c).Match
  serving : ∀ s < f.table.nservers, ∃ cache, FillingCache.Explains limit (observed s log) cache ∧
    ∃ back reqs done, Chatting limit f.table.nservers s x ((f.session c).todo s) (answered c s log) cache
      back reqs done

/-- An accepted message goes to the end of the queue. -/
theorem Session.issue_todo (x : Session) (s s' : ℕ) (m : Msg) :
    (x.issue s m).todo s' = if s' = s then x.todo s ++ [m] else x.todo s' := by
  by_cases hs : s' = s
  · subst hs
    rw [if_pos rfl]
    exact Function.update_self ..
  · rw [if_neg hs]
    exact Function.update_of_ne hs ..

theorem Session.read_awaited {x x' : Session} {s v : ℕ} (h : x.read s v = some x') :
    x'.ready.map (fun a => a.1.2) ++ x'.unread.map Prod.snd
      = x.ready.map (fun a => a.1.2) ++ x.unread.map Prod.snd := by
  unfold Session.read at h
  split at h
  · next r unread a as hun hans =>
    split at h
    · cases h
      simp [hun]
    · cases h
  · cases h

theorem Session.got_awaited {x x' : Session} {v : ℕ} (h : x.got v = some x') {a : Req × ℕ}
    (ha : x.ready.head? = some a) : x.ready = a :: x'.ready ∧ x'.unread = x.unread := by
  unfold Session.got at h
  split at h
  · next a' ready hready =>
    rw [hready, List.head?_cons, Option.some.injEq] at ha
    subst ha
    split at h
    · cases h
      exact ⟨hready, rfl⟩
    · cases h
  · cases h

/-- A handle is no request. -/
theorem isRequest_of_handleOf {m h : Msg} {v : ℕ} (heq : handleOf m v = some h) : h.isRequest = false := by
  cases m with
  | lookup key =>
      simp only [handleOf] at heq
      split at heq
      · cases heq
      · cases heq
        rfl
  | insert key size =>
      simp only [handleOf] at heq
      split at heq
      · cases heq
      · cases heq
        rfl
  | release e => cases heq
  | markReady e => cases heq

section

variable {limit c N s : ℕ} {x x' : Talk} {f f' : Fifo} {log : List Event}

theorem Talk.holds_start (c : ℕ) (bs : List (List Msg)) (t : Table) : (Talk.start bs).Holds c (Fifo.init t) :=
  ⟨rfl, rfl, fun _ hm => (by cases hm)⟩

/-- A client that awaits nothing has read and obtained all responses. -/
theorem Talk.Holds.nil (h : x.Holds c f) (hnil : x.awaited = []) :
    (f.session c).ready = [] ∧ (f.session c).unread = [] := by
  have hawaited := h.awaited
  rw [hnil] at hawaited
  obtain ⟨hready, hunread⟩ := List.append_eq_nil_iff.mp hawaited.symm
  exact ⟨List.map_eq_nil_iff.mp hready, List.map_eq_nil_iff.mp hunread⟩

/-- **The client keeps what the queues say.** -/
theorem Talk.Holds.apply (h : x.Holds c f) {ev : Event} (happly : f.apply ev = some f')
    (htalk : x.apply c ev = some x') : x'.Holds c f' := by
  -- the queues of a client that has no part in the event
  have haside : ∀ {c' : ℕ} (y : Session), c' ≠ c → (f.setSession c' y).session c = f.session c :=
    fun y hne => Fifo.setSession_of_ne f y (Ne.symm hne)
  cases ev with
  | issue c' s m =>
      obtain ⟨-, rfl⟩ := Fifo.apply_issue happly
      simp only [Talk.apply] at htalk
      split at htalk
      case isFalse => cases htalk
      case isTrue hc =>
      subst hc
      have hself : ({ f.setSession c' ((f.session c').issue s m) with
          held := f.held.erase m } : Fifo).session c' = (f.session c').issue s m := Fifo.setSession_self f c' _
      have hkind : ∀ i ∈ f.held.erase m, i.isRequest = false := fun i hi =>
        h.held_kind i (List.mem_of_mem_erase hi)
      rcases Talk.send_cases htalk with ⟨hm, rest, -, rfl⟩ | ⟨hm, hset, hhandles, rest, later, -, rfl⟩ |
        ⟨hm, hset, -, rfl⟩
      · have hheld : f.held.erase m = f.held := List.erase_of_not_mem fun hmem => by
          rw [h.held_kind m hmem] at hm
          cases hm
        refine ⟨?_, h.handles.trans hheld.symm, hkind⟩
        rw [hself]
        simp [Session.issue, hm, h.awaited]
      · obtain ⟨hready, hunread⟩ := h.nil hset.2
        refine ⟨?_, ?_, hkind⟩
        · rw [hself]
          simp [Session.issue, hm, hready, hunread]
        · show [] = f.held.erase m
          rw [← h.handles, hhandles]
          rfl
      · obtain ⟨hready, hunread⟩ := h.nil hset.2
        refine ⟨?_, ?_, hkind⟩
        · rw [hself]
          simp [Session.issue, hm, hready, hunread, hset.2]
        · show x.handles.erase m = f.held.erase m
          rw [h.handles]
  | exec s c' op o resp removed =>
      cases htalk
      obtain ⟨m, rest, t, -, -, -, rfl⟩ := Fifo.apply_exec happly
      refine ⟨h.awaited.trans ?_, h.handles, h.held_kind⟩
      by_cases hc : c' = c
      · subst hc
        have hself : ({ f.setSession c' ((f.session c').exec s m rest resp) with table := t } : Fifo).session c'
            = (f.session c').exec s m rest resp := Fifo.setSession_self f c' _
        rw [hself]
        rfl
      · have hkeep : ({ f.setSession c' ((f.session c').exec s m rest resp) with table := t } : Fifo).session c
            = f.session c := haside _ hc
        rw [hkeep]
  | read c' s v =>
      cases htalk
      obtain ⟨y, hy, rfl⟩ := Fifo.apply_read happly
      refine ⟨h.awaited.trans ?_, h.handles, h.held_kind⟩
      by_cases hc : c' = c
      · subst hc
        rw [Fifo.setSession_self, Session.read_awaited hy]
      · rw [haside y hc]
  | got c' v =>
      simp only [Talk.apply] at htalk
      split at htalk
      case isFalse => cases htalk
      case isTrue hc =>
      subst hc
      obtain ⟨a, y, ha, hy, rfl⟩ := Fifo.apply_got happly
      obtain ⟨hready, hunread⟩ := Session.got_awaited hy ha
      have hself : ({ f.setSession c' y with held := f.held ++ (handleOf a.1.2 v).toList } : Fifo).session c' = y :=
        Fifo.setSession_self f c' y
      have hawaited := h.awaited
      rw [hready, ← hunread, List.map_cons, List.cons_append] at hawaited
      simp only [Talk.obtain, hawaited, Option.some.injEq] at htalk
      subst htalk
      refine ⟨by rw [hself], ?_, fun m hm => ?_⟩
      · show x.handles ++ _ = f.held ++ _
        rw [h.handles]
      · rcases List.mem_append.mp hm with hm | hm
        · exact h.held_kind m hm
        · exact isRequest_of_handleOf (Option.mem_toList.mp hm)
  | doallDone c' queries values =>
      cases htalk
      obtain ⟨-, -, -, -, rfl⟩ := Fifo.apply_doallDone happly
      exact h

/-- Between two batches no request is under way. -/
theorem Chat.quiet (h : Chat limit c x f log) (hset : x.Settled) :
    (f.session c).ready = [] ∧ (f.session c).unread = [] ∧
      ∀ s, (f.session c).ans s = [] ∧ ∀ m ∈ (f.session c).todo s, m.isRequest = false := by
  obtain ⟨hready, hunread⟩ := h.holds.nil hset.2
  refine ⟨hready, hunread, fun s => ?_⟩
  have hmatch := h.matched c s
  rw [hunread, List.filter_nil] at hmatch
  obtain ⟨hans, htodo⟩ := List.append_eq_nil_iff.mp (List.map_eq_nil_iff.mp hmatch.symm)
  refine ⟨List.map_eq_nil_iff.mp hans, fun m hm => ?_⟩
  have hnot := List.filter_eq_nil_iff.mp htodo m hm
  simpa using hnot

/-- Once all handles of a batch have been given back, those of elements being filled are in the queue. -/
theorem Chat.marks_sent (h : Chat limit c x f log) (hset : x.Settled) (hheld : f.held = [])
    (hsettled : Settled N f) {cache : FillingCache.Cache ℕ ℕ} (hserves : Serves limit f.table (f.due N) s cache)
    {v : ℕ} (hv : v ∈ cache.filling) : .markReady v ∈ (f.session c).todo s := by
  obtain ⟨hready, -, hans⟩ := h.quiet hset
  obtain ⟨hdue, hhome⟩ := (hserves.filling v).mp hv
  rw [Fifo.due, hheld, List.count_nil, Nat.add_zero] at hdue
  obtain ⟨c', -, hpos⟩ := Finset.exists_ne_zero_of_sum_ne_zero hdue.ne'
  have hc : c' = c := by
    by_contra hne
    rw [h.silent c' hne] at hpos
    exact hpos (by simp [Session.due, Session.empty])
  subst hc
  rw [Session.due, hready, List.countP_nil, Nat.add_zero] at hpos
  obtain ⟨s', -, hpos⟩ := Finset.exists_ne_zero_of_sum_ne_zero hpos
  rw [(hans s').1, List.countP_nil, Nat.zero_add] at hpos
  have hmem : .markReady v ∈ (f.session c').todo s' := List.count_pos_iff.mp (Nat.pos_of_ne_zero hpos)
  have hs' : s' = s := (hsettled.routed c' s' _ hmem).trans hhome
  exact hs' ▸ hmem

/-- While a request waits, the batch is not finished. -/
theorem Chat.unsettled (h : Chat limit c x f log) {m : Msg} {rest : List Msg}
    (htodo : (f.session c).todo s = m :: rest) (hm : m.isRequest = true) : ¬ x.Settled := by
  intro hset
  have hnone := ((h.quiet hset).2.2 s).2 m (by rw [htodo]; exact List.mem_cons_self)
  rw [hm] at hnone
  cases hnone

/-- Between two batches a server has executed the whole batch. -/
theorem Chat.reqs_nil (h : Chat limit c x f log) (hset : x.Settled) {vals : List (Option ℕ)}
    {cache : FillingCache.Cache ℕ ℕ} {back reqs done : List Msg}
    (hchat : Chatting limit f.table.nservers s x ((f.session c).todo s) vals cache back reqs done) : reqs = [] := by
  refine List.eq_nil_iff_forall_not_mem.mpr fun m hm => ?_
  have hnot := ((h.quiet hset).2.2 s).2 m (hchat.todo_eq ▸ List.mem_append_right back hm)
  rw [hchat.reqs_kind m hm] at hnot
  cases hnot

/-- The tally of a finished batch is the one the next batch starts from. -/
theorem Talk.tally_next (n : ℕ) {done : List Msg} (hdone : x.asked.filter (fun m => hashGetServer n m.key = s) = done)
    (m : Msg) (rest : List Msg) (later : List (List Msg)) :
    Talk.tally limit n s ⟨x.past ++ [x.asked], [m], rest, [m], [], later⟩ [] = (x.tally limit n s done).settle := by
  rw [Talk.tally, Talk.tally, List.map_append, Tally.rounds_append, ← hdone]
  rfl

/-- An event that only the client takes part in adds nothing to what a server has done. -/
theorem Chat.serving_of (h : Chat limit c x f log) {ev : Event} (hobs : observed s [ev] = [])
    (hans : answered c s [ev] = []) (hs : s < f.table.nservers)
    (hgo : ∀ {cache : FillingCache.Cache ℕ ℕ} {back reqs done : List Msg},
      FillingCache.Explains limit (observed s log) cache →
      Chatting limit f.table.nservers s x ((f.session c).todo s) (answered c s log) cache back reqs done →
      ∃ back reqs done, Chatting limit f.table.nservers s x' ((f'.session c).todo s) (answered c s log) cache
        back reqs done) :
    ∃ cache, FillingCache.Explains limit (observed s (log ++ [ev])) cache ∧ ∃ back reqs done,
      Chatting limit f.table.nservers s x' ((f'.session c).todo s) (answered c s (log ++ [ev])) cache
        back reqs done := by
  obtain ⟨cache, hc, back, reqs, done, hchat⟩ := h.serving s hs
  refine ⟨cache, ?_, ?_⟩
  · rw [observed_append, hobs, List.append_nil]
    exact hc
  · rw [answered_append, hans, List.append_nil]
    exact hgo hc hchat

/-- **The client sends a message.** -/
theorem Chat.issue (h : Chat limit c x f log) (hsettled : Settled N f)
    (hcached : ∀ s < f.table.nservers, ∃ cache, FillingCache.Explains limit (observed s log) cache ∧
      Serves limit f.table (f.due N) s cache)
    {c' s' : ℕ} {m : Msg} (happly : f.apply (.issue c' s' m) = some f')
    (htalk : x.apply c (.issue c' s' m) = some x') : Chat limit c x' f' (log ++ [.issue c' s' m]) := by
  have hmatch := Fifo.apply_match h.matched happly
  have hholds := h.holds.apply happly htalk
  obtain ⟨howner, rfl⟩ := Fifo.apply_issue happly
  simp only [Talk.apply] at htalk
  split at htalk
  case isFalse => cases htalk
  case isTrue hc =>
  subst hc
  have hsilent : ∀ i, i ≠ c' → ({ f.setSession c' ((f.session c').issue s' m) with
      held := f.held.erase m } : Fifo).session i = Session.empty := fun i hi =>
    (Fifo.setSession_of_ne f _ hi).trans (h.silent i hi)
  have hself : ({ f.setSession c' ((f.session c').issue s' m) with
      held := f.held.erase m } : Fifo).session c' = (f.session c').issue s' m := Fifo.setSession_self f c' _
  rcases Talk.send_cases htalk with ⟨hm, rest, hrest, rfl⟩ | ⟨hm, hset, hhandles, rest, later, hlater, rfl⟩ |
    ⟨hm, hset, hmem, rfl⟩
  · -- the next request of the batch
    have hnot : ¬ x.Settled := fun hset => by
      have hnil := hset.1
      rw [hrest] at hnil
      cases hnil
    have hnot' : ¬ Talk.Settled { x with
        asked := x.asked ++ [m], rest := rest, awaited := x.awaited ++ [m] } := fun hset =>
      List.append_ne_nil_of_right_ne_nil _ (List.cons_ne_nil _ _) hset.2
    have hkey := howner.trans (Fifo.owner_of_isRequest hm)
    refine ⟨hsilent, hholds, hmatch, fun s hs => ?_⟩
    refine h.serving_of rfl rfl hs fun {cache back reqs done} hc hchat => ?_
    have hnamed := hchat.named
    rw [if_neg hnot] at hnamed
    rw [hself, Session.issue_todo]
    by_cases heq : s = s'
    · subst heq
      rw [if_pos rfl]
      refine ⟨back, reqs ++ [m], done, ?_, hchat.back_kind, ?_, ?_, by rwa [if_neg hnot'],
        fun _ => hchat.order hnot, fun _ v hv => ?_⟩
      · rw [hchat.todo_eq, List.append_assoc]
      · intro i hi
        rcases List.mem_append.mp hi with hi | hi
        · exact hchat.reqs_kind i hi
        · rw [List.mem_singleton.mp hi]
          exact hm
      · have hone : [m].filter (fun m => decide (hashGetServer f.table.nservers m.key = s)) = [m] :=
          List.filter_cons_of_pos (by simpa using hkey.symm)
        rw [List.filter_append, hchat.asked, List.append_assoc, hone]
      · exact (hchat.filling hnot v hv).imp_left (List.mem_append_left _)
    · rw [if_neg heq]
      refine ⟨back, reqs, done, hchat.todo_eq, hchat.back_kind, hchat.reqs_kind, ?_, by rwa [if_neg hnot'],
        fun _ => hchat.order hnot, fun _ => hchat.filling hnot⟩
      rw [List.filter_append, hchat.asked, List.filter_cons_of_neg (by simpa [← hkey] using Ne.symm heq)]
      exact List.append_nil _
  · -- the first request of a batch
    have hnot' : ¬ Talk.Settled ⟨x.past ++ [x.asked], [m], rest, [m], [], later⟩ := fun hset =>
      List.cons_ne_nil _ _ hset.2
    have hkey := howner.trans (Fifo.owner_of_isRequest hm)
    have hheld : f.held = [] := h.holds.handles.symm.trans hhandles
    refine ⟨hsilent, hholds, hmatch, fun s hs => ?_⟩
    obtain ⟨cache', hc', hserves⟩ := hcached s hs
    refine h.serving_of rfl rfl hs fun {cache back reqs done} hc hchat => ?_
    cases hc.unique hc'
    have hnamed := hchat.named
    have hnil := h.reqs_nil hset hchat
    subst hnil
    have hasked := hchat.asked
    rw [List.append_nil] at hasked
    have htodo := hchat.todo_eq
    rw [List.append_nil] at htodo
    rw [if_pos hset, ← Talk.tally_next _ hasked m rest later] at hnamed
    rw [hself, Session.issue_todo]
    by_cases heq : s = s'
    · subst heq
      rw [if_pos rfl]
      refine ⟨back, [m], [], by rw [htodo], hchat.back_kind, ?_, ?_, by rwa [if_neg hnot'],
        fun _ => Or.inr rfl, fun _ v hv => Or.inl ?_⟩
      · intro i hi
        rw [List.mem_singleton.mp hi]
        exact hm
      · exact List.filter_cons_of_pos (by simpa using hkey.symm)
      · exact List.mem_append_left _ (h.marks_sent hset hheld hsettled hserves hv)
    · rw [if_neg heq]
      refine ⟨back, [], [], by rw [htodo, List.append_nil], hchat.back_kind, fun i hi => (by cases hi), ?_,
        by rwa [if_neg hnot'], fun _ => Or.inr rfl, fun _ v hv => Or.inl ?_⟩
      · exact List.filter_cons_of_neg (by simpa [← hkey] using Ne.symm heq)
      · exact h.marks_sent hset hheld hsettled hserves hv
  · -- a handle
    have hset' : Talk.Settled { x with handles := x.handles.erase m } := hset
    refine ⟨hsilent, hholds, hmatch, fun s hs => ?_⟩
    refine h.serving_of rfl rfl hs fun {cache back reqs done} hc hchat => ?_
    have hnamed := hchat.named
    rw [if_pos hset] at hnamed
    have hnil := h.reqs_nil hset hchat
    subst hnil
    rw [hself, Session.issue_todo]
    by_cases heq : s = s'
    · subst heq
      rw [if_pos rfl]
      refine ⟨back ++ [m], [], done, ?_, ?_, hchat.reqs_kind, hchat.asked, by rwa [if_pos hset'],
        fun hnot => absurd hset' hnot, fun hnot => absurd hset' hnot⟩
      · rw [hchat.todo_eq, List.append_nil, List.append_nil]
      · intro i hi
        rcases List.mem_append.mp hi with hi | hi
        · exact hchat.back_kind i hi
        · rw [List.mem_singleton.mp hi]
          exact hm
    · rw [if_neg heq]
      exact ⟨back, [], done, hchat.todo_eq, hchat.back_kind, hchat.reqs_kind, hchat.asked,
        by rwa [if_pos hset'], fun hnot => absurd hset' hnot, fun hnot => absurd hset' hnot⟩

/-- What a server executes of a batch is one more request of its tally. -/
theorem Talk.tally_concat (n : ℕ) (x : Talk) (done : List Msg) {m : Msg} {a : Ask ℕ} (ha : m.ask = some a) :
    x.tally limit n s (done ++ [m]) = (x.tally limit n s done).ask limit a := by
  have hone : [m].filterMap Msg.ask = [a] := List.filterMap_cons_some ha
  rw [Talk.tally, Talk.tally, List.filterMap_append, hone, Tally.serve_append]
  rfl

/-- Before the first request of a batch nothing is being filled. -/
theorem Talk.tally_nil_filling (n : ℕ) (x : Talk) : (x.tally limit n s []).cache.filling = [] :=
  Tally.filling_rounds rfl _

/-- **A server executes a request of the batch.** -/
theorem Chatting.request {n : ℕ} {vals : List (Option ℕ)} {cache cache' : FillingCache.Cache ℕ ℕ}
    {back reqs done rest : List Msg} {m : Msg} {v : ℕ} {removed : List Removal}
    (h : Chatting limit n s x (m :: rest) vals cache back reqs done) (hnot : ¬ x.Settled)
    (hm : m.isRequest = true) (hins : ∀ key size, m = .insert key size → ∃ e, v = valuePtr e)
    (hnew : (m.op.seen (some v) removed).1.New limit cache)
    (hout : ((m.op.seen (some v) removed).1.run limit cache).2 = (m.op.seen (some v) removed).2)
    (hcache : cache' = ((m.op.seen (some v) removed).1.run limit cache).1) :
    ∃ back reqs done, Chatting limit n s x rest (vals ++ [hitOf v]) cache' back reqs done := by
  obtain ⟨htodo, hback, hreqs, hasked, hnamed, horder, hfilling⟩ := h
  obtain ⟨rfl, rfl⟩ : back = [] ∧ reqs = m :: rest := by
    cases back with
    | nil => exact ⟨rfl, htodo.symm⟩
    | cons b back =>
        rw [List.cons_append] at htodo
        have hb := hback b List.mem_cons_self
        rw [← (List.cons_eq_cons.mp htodo).1, hm] at hb
        cases hb
  rw [if_neg hnot] at hnamed
  -- no handle is in the queue, so what the server is filling was inserted in this batch
  have hsync : FillingCache.Synced vals cache (x.tally limit n s done) := by
    intro w hw
    refine (hfilling hnot w hw).resolve_left fun hmem => ?_
    have hreq := hreqs _ hmem
    cases hreq
  obtain ⟨a, hask, hop, hval⟩ : ∃ a, m.ask = some a ∧ (m.op.seen (some v) removed).1.ask = some a ∧
      (m.op.seen (some v) removed).1.returns (m.op.seen (some v) removed).2 = hitOf v := by
    cases m with
    | lookup key => exact ⟨_, rfl, rfl, rfl⟩
    | insert key size =>
        obtain ⟨e, rfl⟩ := hins key size rfl
        exact ⟨_, rfl, rfl, congrArg some (Nat.add_sub_cancel ..) |>.trans (hitOf_valuePtr e).symm⟩
    | release e => cases hm
    | markReady e => cases hm
  obtain ⟨hnamed', hsync'⟩ := hnamed.request hsync hop hnew
  rw [hout, hval, ← hcache, ← Talk.tally_concat n x done hask] at hnamed' hsync'
  refine ⟨[], rest, done ++ [m], rfl, hback, fun i hi => hreqs i (List.mem_cons_of_mem m hi), ?_, ?_,
    fun _ => Or.inl rfl, fun _ w hw => Or.inr (hsync' w hw)⟩
  · rw [hasked, List.append_assoc]
    rfl
  · rwa [if_neg hnot]

/-- **A server executes a handle.** -/
theorem Chatting.handle {n : ℕ} {vals : List (Option ℕ)} {cache : FillingCache.Cache ℕ ℕ}
    {back reqs done rest : List Msg} {m : Msg} {e : ℕ}
    (h : Chatting limit n s x (m :: rest) vals cache back reqs done) (hm : m = .release e ∨ m = .markReady e) :
    ∃ back reqs done, Chatting limit n s x rest vals (FillingCache.publish e cache).1 back reqs done := by
  obtain ⟨htodo, hback, hreqs, hasked, hnamed, horder, hfilling⟩ := h
  have hkind : m.isRequest = false := by
    rcases hm with rfl | rfl
    · rfl
    · rfl
  obtain ⟨back', rfl, rfl⟩ : ∃ back', back = m :: back' ∧ rest = back' ++ reqs := by
    cases back with
    | nil =>
        have hreq := hreqs m (by rw [← List.nil_append reqs, ← htodo]; exact List.mem_cons_self)
        rw [hkind] at hreq
        cases hreq
    | cons b back =>
        rw [List.cons_append] at htodo
        obtain ⟨rfl, hrest⟩ := List.cons_eq_cons.mp htodo
        exact ⟨back, rfl, hrest⟩
  refine ⟨back', reqs, done, rfl, fun i hi => hback i (List.mem_cons_of_mem m hi), hreqs, hasked, ?_,
    fun hnot => ?_, fun hnot w hw => ?_⟩
  · by_cases hset : x.Settled
    · rw [if_pos hset] at hnamed ⊢
      exact hnamed.publish fun j hj => (by cases hj)
    · rw [if_neg hset] at hnamed ⊢
      have hdone : done = [] := (horder hset).resolve_left (List.cons_ne_nil _ _)
      subst hdone
      refine hnamed.publish fun j hj => ?_
      rw [Talk.tally_nil_filling] at hj
      cases hj
  · exact Or.inr ((horder hnot).resolve_left (List.cons_ne_nil _ _))
  · obtain ⟨hw, hne⟩ := List.mem_filter.mp hw
    have hne : w ≠ e := of_decide_eq_true hne
    refine (hfilling hnot w hw).imp_left fun hmem => ?_
    refine (List.mem_cons.mp hmem).resolve_left ?_
    rintro rfl
    rcases hm with hm | hm
    · cases hm
    · exact hne (Msg.markReady.inj hm)

/-- **A server executes a message.** -/
theorem Chat.exec (h : Chat limit c x f log) {s' c' : ℕ} {op : Op} {o : Oracle} {resp : Option ℕ}
    {removed : List Removal} (hcached : ∀ s < f.table.nservers, ∃ cache,
      FillingCache.Explains limit (observed s (log ++ [.exec s' c' op o resp removed])) cache)
    (happly : f.apply (.exec s' c' op o resp removed) = some f') :
    Chat limit c x f' (log ++ [.exec s' c' op o resp removed]) := by
  have hmatch := Fifo.apply_match h.matched happly
  have hholds : x.Holds c f' := h.holds.apply happly rfl
  obtain ⟨m, rest, t, htodo, hop, hm, rfl⟩ := Fifo.apply_exec happly
  obtain ⟨hresp, hn⟩ := serverOp_resp hop
  have hc : c' = c := by
    by_contra hne
    rw [h.silent c' hne] at htodo
    cases htodo
  subst hc
  have hself : ({ f.setSession c' ((f.session c').exec s' m rest resp) with table := t } : Fifo).session c'
      = (f.session c').exec s' m rest resp := Fifo.setSession_self f c' _
  refine ⟨fun i hi => (Fifo.setSession_of_ne f _ hi).trans (h.silent i hi), hholds, hmatch, fun s hs => ?_⟩
  have hs' : s < f.table.nservers := hn ▸ hs
  obtain ⟨cache', hc'⟩ := hcached s hs'
  obtain ⟨cache, hcache, back, reqs, done, hchat⟩ := h.serving s hs'
  refine ⟨cache', hc', ?_⟩
  rw [hself]
  show ∃ back reqs done, Chatting limit t.nservers s x (((f.session c').exec s' m rest resp).todo s)
    (answered c' s (log ++ [.exec s' c' op o resp removed])) cache' back reqs done
  rw [hn, answered_append, answered_exec]
  rw [observed_append] at hc'
  by_cases heq : s = s'
  · subst heq
    have hobs : observed s [.exec s c' op o resp removed] = [op.seen resp removed] := by simp [observed]
    rw [hobs] at hc'
    obtain ⟨hnew, hout, hlast⟩ := hcache.last hc'
    have hrest : ((f.session c').exec s m rest resp).todo s = rest := Function.update_self ..
    rw [if_pos rfl, hrest]
    rw [htodo] at hchat
    subst hm
    cases m with
    | lookup key =>
        obtain ⟨v, rfl⟩ := Option.isSome_iff_exists.mp hresp
        exact hchat.request (h.unsettled htodo rfl) rfl (fun _ _ hins => by cases hins) hnew hout hlast
    | insert key size =>
        obtain ⟨r, -, hret⟩ := Outcome.bind_ok.mp hop
        cases hret
        exact hchat.request (h.unsettled htodo rfl) rfl (fun _ _ _ => ⟨r.e, rfl⟩) hnew hout hlast
    | release e =>
        cases resp with
        | none =>
            rw [hlast]
            exact (List.append_nil _).symm ▸ hchat.handle (Or.inl rfl)
        | some v => cases hresp
    | markReady e =>
        cases resp with
        | none =>
            rw [hlast]
            exact (List.append_nil _).symm ▸ hchat.handle (Or.inr rfl)
        | some v => cases hresp
  · have hne : ¬ s' = s := fun he => heq he.symm
    have hobs : observed s [.exec s' c' op o resp removed] = [] := by simp [observed, hne]
    rw [hobs, List.append_nil] at hc'
    have hkeep : ((f.session c').exec s' m rest resp).todo s = (f.session c').todo s :=
      Function.update_of_ne heq ..
    rw [if_neg hne, hkeep, List.append_nil, hc'.unique hcache]
    exact ⟨back, reqs, done, hchat⟩

/-- **The client reads a response or obtains a value.** -/
theorem Chat.take (h : Chat limit c x f log) {ev : Event} (hn : f'.table.nservers = f.table.nservers)
    (htodo : (f'.session c).todo = (f.session c).todo) (hsilent : ∀ i, i ≠ c → f'.session i = Session.empty)
    (hholds : x'.Holds c f') (hmatch : ∀ c, (f'.session c).Match) (hobs : ∀ s, observed s [ev] = []) (hans : ∀ s, answered c s [ev] = [])
    (hpast : x'.past = x.past) (hasked : x'.asked = x.asked)
    (hset : x.Settled → x'.Settled) : Chat limit c x' f' (log ++ [ev]) := by
  refine ⟨hsilent, hholds, hmatch, fun s hs => ?_⟩
  rw [hn] at hs
  rw [hn]
  refine h.serving_of (hobs s) (hans s) hs fun {cache back reqs done} _ hchat => ?_
  have htally : x'.tally limit f.table.nservers s done = x.tally limit f.table.nservers s done := by
    rw [Talk.tally, Talk.tally, hpast]
  refine ⟨back, reqs, done, htodo ▸ hchat.todo_eq, hchat.back_kind, hchat.reqs_kind, hasked ▸ hchat.asked, ?_,
    fun hnot => hchat.order (mt hset hnot), fun hnot => ?_⟩
  · have hnamed := hchat.named
    rw [htally]
    by_cases hx : x.Settled
    · rw [if_pos hx] at hnamed
      rwa [if_pos (hset hx)]
    · rw [if_neg hx] at hnamed
      by_cases hx' : x'.Settled
      · rw [if_pos hx']
        exact hnamed.settle
      · rwa [if_neg hx']
  · rw [htally, htodo]
    exact hchat.filling (mt hset hnot)

/-- **One event.** -/
theorem Chat.apply (h : Chat limit c x f log) (hsettled : Settled N f) (hold : Cached limit N f log) {ev : Event}
    (hnew : Cached limit N f' (log ++ [ev])) (happly : f.apply ev = some f') (htalk : x.apply c ev = some x') :
    Chat limit c x' f' (log ++ [ev]) := by
  have hmatch := Fifo.apply_match h.matched happly
  have hholds := h.holds.apply happly htalk
  have hn := Fifo.apply_nservers happly
  cases ev with
  | issue c' s m => exact h.issue hsettled hold happly htalk
  | exec s c' op o resp removed =>
      cases htalk
      refine h.exec (fun s hs => ?_) happly
      obtain ⟨cache, hc, -⟩ := hnew s (hn ▸ hs)
      exact ⟨cache, hc⟩
  | read c' s v =>
      cases htalk
      obtain ⟨y, hy, rfl⟩ := Fifo.apply_read happly
      have hc : c' = c := by
        by_contra hne
        rw [h.silent c' hne] at hy
        cases hy
      subst hc
      have hself : (f.setSession c' y).session c' = y := Fifo.setSession_self f c' y
      exact h.take rfl (by rw [hself, (Session.read_todo hy).1])
        (fun i hi => (Fifo.setSession_of_ne f _ hi).trans (h.silent i hi)) hholds hmatch
        (fun _ => rfl) (fun _ => rfl) rfl rfl id
  | got c' v =>
      simp only [Talk.apply] at htalk
      split at htalk
      case isFalse => cases htalk
      case isTrue hc =>
      subst hc
      obtain ⟨a, y, ha, hy, rfl⟩ := Fifo.apply_got happly
      have hself : ({ f.setSession c' y with held := f.held ++ (handleOf a.1.2 v).toList } : Fifo).session c' = y :=
        Fifo.setSession_self f c' y
      unfold Talk.obtain at htalk
      split at htalk
      · next m awaited hcons =>
        cases htalk
        refine h.take rfl (by rw [hself, (Session.got_todo hy).1])
          (fun i hi => (Fifo.setSession_of_ne f _ hi).trans (h.silent i hi)) hholds hmatch
          (fun _ => rfl) (fun _ => rfl) rfl rfl fun hset => ?_
        rw [hset.2] at hcons
        cases hcons
      · cases htalk
  | doallDone c' queries values =>
      cases htalk
      obtain ⟨-, -, -, -, rfl⟩ := Fifo.apply_doallDone happly
      exact h.take rfl rfl h.silent hholds hmatch (fun _ => rfl) (fun _ => rfl) rfl rfl id

end

/-! ### Whole runs -/

theorem accepted_append (c : ℕ) (log log' : List Event) :
    accepted c (log ++ log') = accepted c log ++ accepted c log' := List.filterMap_append ..

theorem obtained_append (c : ℕ) (log log' : List Event) :
    obtained c (log ++ log') = obtained c log ++ obtained c log' := List.filterMap_append ..

theorem accepted_issue (c s : ℕ) (m : Msg) : accepted c [.issue c s m] = if m.isRequest then [(s, m)] else [] := by
  by_cases hm : m.isRequest = true
  · simp [accepted, hm]
  · simp [accepted, hm]

theorem obtained_got (c v : ℕ) : obtained c [.got c v] = [v] := by simp [obtained]

/-- What the client has asked for is what the batches say. -/
structure Talk.Follows (c : ℕ) (bs : List (List Msg)) (x : Talk) (log : List Event) : Prop where
  plan : x.past ++ (x.asked ++ x.rest) :: x.later = [] :: bs
  accepted_eq : (accepted c log).map Prod.snd = x.past.flatten ++ x.asked

theorem Talk.follows_start (c : ℕ) (bs : List (List Msg)) : Talk.Follows c bs (Talk.start bs) [] := ⟨rfl, rfl⟩

theorem Talk.Follows.apply {c : ℕ} {bs : List (List Msg)} {x x' : Talk} {log : List Event}
    (h : Talk.Follows c bs x log) {ev : Event} (htalk : x.apply c ev = some x') :
    Talk.Follows c bs x' (log ++ [ev]) := by
  have hmore : (accepted c (log ++ [ev])).map Prod.snd
      = (x.past.flatten ++ x.asked) ++ (accepted c [ev]).map Prod.snd := by
    rw [accepted_append, List.map_append, h.accepted_eq]
  have hplan := h.plan
  cases ev with
  | issue c' s m =>
      simp only [Talk.apply] at htalk
      split at htalk
      case isFalse => cases htalk
      case isTrue hc =>
      subst hc
      rw [accepted_issue] at hmore
      rcases Talk.send_cases htalk with ⟨hm, rest, hrest, rfl⟩ | ⟨hm, hset, -, rest, later, hlater, rfl⟩ |
        ⟨hm, -, -, rfl⟩
      · rw [if_pos hm] at hmore
        refine ⟨?_, by rw [hmore, List.append_assoc]; rfl⟩
        rw [← hplan, hrest]
        simp
      · rw [if_pos hm] at hmore
        refine ⟨?_, by rw [hmore, List.flatten_concat]; rfl⟩
        rw [← hplan, hlater, hset.1]
        simp
      · rw [if_neg (by simp [hm]), List.map_nil, List.append_nil] at hmore
        exact ⟨hplan, hmore⟩
  | got c' v =>
      rw [show accepted c [.got c' v] = [] from rfl, List.map_nil, List.append_nil] at hmore
      simp only [Talk.apply] at htalk
      split at htalk
      case isFalse => cases htalk
      case isTrue hc =>
      unfold Talk.obtain at htalk
      split at htalk
      · cases htalk
        exact ⟨hplan, hmore⟩
      · cases htalk
  | exec s c' op o resp removed =>
      cases htalk
      exact ⟨hplan, hmore.trans (List.append_nil _)⟩
  | read c' s v =>
      cases htalk
      exact ⟨hplan, hmore.trans (List.append_nil _)⟩
  | doallDone c' queries values =>
      cases htalk
      exact ⟨hplan, hmore.trans (List.append_nil _)⟩

theorem Talk.follows {c : ℕ} {bs : List (List Msg)} {x : Talk} {log : List Event}
    (hx : Runs.replay (Talk.apply c) (Talk.start bs) log = some x) : Talk.Follows c bs x log :=
  Runs.replay_history (P := Talk.Follows c bs) (Talk.follows_start c bs) (fun h ha => h.apply ha) hx

theorem chat_init {maxSize nservers c : ℕ} (bs : List (List Msg)) : Chat (maxSize / nservers) c (Talk.start bs)
    (Fifo.init (createHashTable maxSize nservers .lru)) [] := by
  refine ⟨fun _ _ => rfl, Talk.holds_start c bs _, fun _ => Session.empty_match, fun s _ => ?_⟩
  refine ⟨.empty, FillingCache.explains_nil _, [], [], [], rfl, fun _ hm => (by cases hm), fun _ hm => (by cases hm),
    rfl, ?_, fun hnot => absurd ⟨rfl, rfl⟩ hnot, fun hnot => absurd ⟨rfl, rfl⟩ hnot⟩
  rw [if_pos ⟨rfl, rfl⟩]
  exact Named.start

/-- The servers are caches, and the client that works in batches and the queues agree. -/
structure ChatInv (limit nservers c : ℕ) (bs : List (List Msg)) (N : ℕ) (f : Fifo) (log : List Event) : Prop
    extends CacheInv limit nservers N f log where
  chat : ∀ x, Runs.replay (Talk.apply c) (Talk.start bs) log = some x → (∀ e ∈ log, e.Sized ∧ e.Allocated) →
    log.length + 2 < 2 ^ 63 → Chat limit c x f log

theorem ChatInv.apply {limit nservers c N : ℕ} {bs : List (List Msg)} {f f' : Fifo} {log : List Event}
    (h : ChatInv limit nservers c bs N f log) (hlimit : limit < 2 ^ 63) {ev : Event} (hev : ev.Proper N f)
    (happly : f.apply ev = some f') : ChatInv limit nservers c bs N f' (log ++ [ev]) := by
  have hnew := h.toCacheInv.apply hlimit hev happly
  refine ⟨hnew, fun y hy hcalls hlen => ?_⟩
  rw [Runs.replay_append] at hy
  obtain ⟨y₁, hy₁, hy⟩ := Option.bind_eq_some_iff.mp hy
  obtain ⟨y₂, hy₂, hy⟩ := Option.bind_eq_some_iff.mp hy
  cases hy
  have hcalls' : ∀ a ∈ log, a.Sized ∧ a.Allocated := fun a ha => hcalls a (List.mem_append_left _ ha)
  have hlen' : log.length + 2 < 2 ^ 63 := by
    rw [List.length_append, List.length_singleton] at hlen
    omega
  exact (h.chat y₁ hy₁ hcalls' hlen').apply h.settled (h.cached hcalls' hlen') (hnew.cached hcalls hlen) happly hy₂

theorem disciplined_chat {maxSize nservers : ℕ} (hmax : maxSize / nservers < 2 ^ 63) (c : ℕ)
    (bs : List (List Msg)) {st : Sys} {log : List Event}
    (h : Sys.Disciplined (createHashTable maxSize nservers .lru) st log) :
    ∃ f, (Fifo.init (createHashTable maxSize nservers .lru)).replay log = some f ∧ Coupled st f ∧
      ChatInv (maxSize / nservers) nservers c bs st.nclients f log :=
  h.history (Q := ChatInv (maxSize / nservers) nservers c bs)
    ⟨⟨handleInv_init maxSize nservers .lru, rfl, fun _ _ => cached_init⟩, fun y hy _ _ => by
      cases hy
      exact chat_init bs⟩
    (fun h => ⟨h.toCacheInv.create, h.chat⟩) fun h hev happly => h.apply hmax hev happly

/-- The requests of this batch that server `s` has executed come first. -/
theorem Talk.asks_eq {n s : ℕ} {x : Talk} {done reqs : List Msg}
    (hasked : x.asked.filter (fun m => hashGetServer n m.key = s) = done ++ reqs) :
    asksTo n s (x.asked ++ x.rest) = done.filterMap Msg.ask ++ (reqs.filterMap Msg.ask ++ asksTo n s x.rest) := by
  rw [asksTo, List.filter_append, hasked, List.filterMap_append, List.filterMap_append, List.append_assoc]
  rfl

/-- The values obtained for requests to `s` are answers of `s`, from the first one on. -/
theorem Talk.Follows.values_prefix {c s : ℕ} {t : Table} {bs : List (List Msg)} {x : Talk} {f : Fifo}
    {log : List Event} (h : Talk.Follows c bs x log) (hlog : (Fifo.init t).replay log = some f) :
    valuesAt t.nservers s bs (obtained c log) <+: answered c s log := by
  have htold := Fifo.replay_told hlog c
  have hreqs : (f.session c).done.map (fun a => a.1.2) <+: bs.flatten := by
    rw [requests_of_plan h.plan, ← h.accepted_eq, htold.accepted_eq, List.map_append, List.map_append,
      List.map_append, List.map_map, List.append_assoc, List.append_assoc]
    exact List.prefix_append _ _
  have hroute : ∀ a ∈ (f.session c).done, decide (hashGetServer t.nservers a.1.2.key = s) = decide (a.1.1 = s) := by
    intro a ha
    have hmem : (a.1.1, a.1.2) ∈ accepted c log := by
      rw [htold.accepted_eq]
      exact List.mem_append_left _ (List.mem_map_of_mem (List.mem_append_left _ ha))
    rw [Fifo.accepted_routed hlog hmem]
  have hvals : valuesAt t.nservers s bs (obtained c log) <+: _ :=
    valuesAt_prefix t.nservers s [] hreqs (by rw [htold.obtained_eq]; simp)
  rw [List.append_nil, htold.obtained_eq, List.zip_map', List.filter_map, List.map_map] at hvals
  have hdone : ((f.session c).done.filter fun a => hashGetServer t.nservers a.1.2.key = s)
      = (f.session c).done.filter fun a => a.1.1 = s := List.filter_congr hroute
  rw [answered, htold.answers_eq, List.filter_append, List.map_append, List.map_append, List.map_append,
    List.map_map, List.append_assoc, ← hdone, htold.obtained_eq]
  exact hvals.trans (List.prefix_append _ _)

/-- The requests of a client that has finished are those it has obtained the values of. -/
theorem Talk.Follows.finished {c : ℕ} {bs : List (List Msg)} {x : Talk} {log : List Event}
    (h : Talk.Follows c bs x log) (hset : x.Settled) (hlater : x.later = []) :
    bs.flatten = (accepted c log).map Prod.snd := by
  rw [requests_of_plan h.plan, hset.1, hlater, h.accepted_eq, List.nil_append, List.flatten_nil, List.append_nil]

section

variable {maxSize nservers c s : ℕ} {st : Sys} {log : List Event} {bs : List (List Msg)} {x : Talk}

/-- The values obtained so far are those that are expected. -/
theorem disciplined_agrees (hmax : maxSize / nservers < 2 ^ 63)
    (h : Sys.Disciplined (createHashTable maxSize nservers .lru) st log)
    (hcalls : ∀ e ∈ log, e.Sized ∧ e.Allocated) (hlen : log.length + 2 < 2 ^ 63)
    (htalk : Runs.replay (Talk.apply c) (Talk.start bs) log = some x) (hs : s < nservers) :
    Agrees (expected (maxSize / nservers) nservers s bs).answers (valuesAt nservers s bs (obtained c log)) := by
  obtain ⟨f, hlog, -, hinv⟩ := disciplined_chat hmax c bs h
  have hfollows := Talk.follows htalk
  have hn := hinv.nservers_eq
  obtain ⟨cache, -, back, reqs, done, hthis⟩ := (hinv.chat x htalk hcalls hlen).serving s (hn ▸ hs)
  have hnamed := hthis.named
  rw [hn] at hthis hnamed
  have hanswers : Agrees (x.tally (maxSize / nservers) nservers s done).answers (answered c s log) := by
    by_cases hset : x.Settled
    · rw [if_pos hset] at hnamed
      exact hnamed.answered
    · rw [if_neg hset] at hnamed
      exact hnamed.answered
  exact hanswers.prefix (answers_of_plan hfollows.plan (Talk.asks_eq hthis.asked)) (hfollows.values_prefix hlog)

/-- A client that has finished has obtained a value for every request. -/
theorem disciplined_obtained (hmax : maxSize / nservers < 2 ^ 63)
    (h : Sys.Disciplined (createHashTable maxSize nservers .lru) st log)
    (hcalls : ∀ e ∈ log, e.Sized ∧ e.Allocated) (hlen : log.length + 2 < 2 ^ 63)
    (htalk : Runs.replay (Talk.apply c) (Talk.start bs) log = some x) (hset : x.Settled) (hlater : x.later = []) :
    (obtained c log).length = bs.flatten.length := by
  obtain ⟨f, hlog, -, hinv⟩ := disciplined_chat hmax c bs h
  have hfollows := Talk.follows htalk
  obtain ⟨hready, hunread, -⟩ := (hinv.chat x htalk hcalls hlen).quiet hset
  have htold := Fifo.replay_told hlog c
  rw [hfollows.finished hset hlater, htold.accepted_eq, htold.obtained_eq, hready, hunread]
  simp

/-- A partition after a client has finished. -/
theorem disciplined_entries (hmax : maxSize / nservers < 2 ^ 63)
    (h : Sys.Disciplined (createHashTable maxSize nservers .lru) st log)
    (hcalls : ∀ e ∈ log, e.Sized ∧ e.Allocated) (hlen : log.length + 2 < 2 ^ 63)
    (htalk : Runs.replay (Talk.apply c) (Talk.start bs) log = some x) (hset : x.Settled) (hlater : x.later = [])
    (hs : s < nservers) : ((st.table.part s).lru.map (view st.table.mem)).map (fun e => (e.key, e.size))
      = (expected (maxSize / nservers) nservers s bs).cache.entries.map fun e => (e.key, e.size) := by
  obtain ⟨f, hlog, hcoup, hinv⟩ := disciplined_chat hmax c bs h
  have hchat := hinv.chat x htalk hcalls hlen
  have hfollows := Talk.follows htalk
  have hn := hinv.nservers_eq
  obtain ⟨cache, hc, back, reqs, done, hthis⟩ := hchat.serving s (hn ▸ hs)
  obtain ⟨cache', hc', hserves⟩ := hinv.cached hcalls hlen s (hn ▸ hs)
  cases hc.unique hc'
  cases hchat.reqs_nil hset hthis
  have hnamed := hthis.named
  rw [if_pos hset, hn] at hnamed
  rw [hn] at hthis
  have hentries := congrArg (List.map fun e => (e.key, e.size)) hnamed.entries
  rw [List.map_map, List.map_map] at hentries
  rw [← hcoup.table, hserves.rep.entries, expected_of_plan hfollows.plan (Talk.asks_eq hthis.asked), hset.1, hlater]
  exact hentries

end

/-- **Batches are answered as by a cache of numbers.**  For a client that works in batches while no other client
sends anything, whatever the interleaving of its steps with those of the servers: the values it obtains are those
that each server's cache of numbers answers, round by round, and once it has finished the partitions hold the same
keys with the same sizes in the same order of use. -/
theorem batches_answered {maxSize nservers : ℕ} (hmax : maxSize / nservers < 2 ^ 63) {st : Sys}
    {log : List Event} (h : Sys.Disciplined (createHashTable maxSize nservers .lru) st log)
    (hcalls : ∀ e ∈ log, e.Sized ∧ e.Allocated) (hlen : log.length + 2 < 2 ^ 63) {c : ℕ} {bs : List (List Msg)}
    {x : Talk} (htalk : Runs.replay (Talk.apply c) (Talk.start bs) log = some x) {s : ℕ} (hs : s < nservers) :
    Agrees (expected (maxSize / nservers) nservers s bs).answers (valuesAt nservers s bs (obtained c log)) ∧
      (x.Settled → x.later = [] → (obtained c log).length = bs.flatten.length ∧
        ((st.table.part s).lru.map (view st.table.mem)).map (fun e => (e.key, e.size))
          = (expected (maxSize / nservers) nservers s bs).cache.entries.map fun e => (e.key, e.size)) :=
  ⟨disciplined_agrees hmax h hcalls hlen htalk hs, fun hset hlater =>
    ⟨disciplined_obtained hmax h hcalls hlen htalk hset hlater,
      disciplined_entries hmax h hcalls hlen htalk hset hlater hs⟩⟩

/-- Two batches through `smp_hash_doall` in a table with room for one element: a lookup of what the same batch
inserts, a lookup of it in the next batch, and an insert that takes its place. -/
def batchesRun : List Act := List.flatten [
  [.create (fun _ => 0) (fun _ => 0), .start fun _ _ => 0],
  .call 0 (.doall [⟨OPTYPE_INSERT, 8, 5⟩, ⟨OPTYPE_LOOKUP, 0, 5⟩]) ::
    (List.replicate 34 [.client 0, .server 0 ⟨[some 64], []⟩]).flatten,
  .call 0 (.markReady 128) :: (List.replicate 6 [.client 0, .server 0 ⟨[], []⟩]).flatten,
  .call 0 (.doall [⟨OPTYPE_LOOKUP, 0, 5⟩, ⟨OPTYPE_INSERT, 8, 6⟩]) ::
    (List.replicate 38 [.client 0, .server 0 ⟨[some 256], []⟩]).flatten]

/-- The batches of this run. -/
def batchesMade : List (List Msg) := [[.insert 5 8, .lookup 5], [.lookup 5, .insert 6 8]]

/-- Where its client stands at the end. -/
def batchesEnd : Talk :=
  ⟨[[], [.insert 5 8, .lookup 5]], [.lookup 5, .insert 6 8], [], [], [.release 64, .markReady 256], []⟩

theorem batches_answered_twice : ∃ st log, Sys.Disciplined (createHashTable 128 1 .lru) st log ∧
    obtained 0 log = [128, 0, 128, 320] ∧ (expected 128 1 0 batchesMade).answers = [some 0, none, some 0, some 3] ∧
    Agrees (expected 128 1 0 batchesMade).answers (valuesAt 1 0 batchesMade (obtained 0 log)) ∧
    ((st.table.part 0).lru.map (view st.table.mem)).map (fun e => (e.key, e.size)) = [(6, 128)] := by
  have hval : (Runs.run Sys.step
      (fun st log a => a.Ok st ∧ a.Returns (createHashTable 128 1 .lru) log) batchesRun
      (Sys.init (createHashTable 128 1 .lru)) []).map
        (fun r => (obtained 0 r.2, r.2.length, decide ((∀ e ∈ r.2, e.Sized ∧ e.Allocated) ∧
          Runs.replay (Talk.apply 0) (Talk.start batchesMade) r.2 = some batchesEnd)))
      = some ([128, 0, 128, 320], 20, true) := by
    decide +kernel
  obtain ⟨⟨st, log⟩, hrun, heq⟩ := Option.map_eq_some_iff.mp hval
  have hreach : Sys.Disciplined (createHashTable 128 1 .lru) st log := Runs.Reach.start.run hrun
  obtain ⟨hobtained, heq⟩ := Prod.mk.inj heq
  obtain ⟨hlen, hgood⟩ := Prod.mk.inj heq
  simp only at hobtained hlen
  obtain ⟨hcalls, htalk⟩ := of_decide_eq_true hgood
  obtain ⟨hanswered, hend⟩ := batches_answered (by decide) hreach hcalls (by rw [hlen]; decide) htalk Nat.one_pos
  exact ⟨st, log, hreach, hobtained, by decide, hanswered, (hend ⟨rfl, rfl⟩ rfl).2.trans (by decide)⟩

end SmpHashTable
