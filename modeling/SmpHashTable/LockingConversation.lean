import SmpHashTable.Conversation
import SmpHashTable.LockingRefinement

/-!
# Batches of requests on the locking table

A thread works in batches here too: it makes all calls of a batch one after the other, marks the elements it has
inserted ready, and goes on with the next batch.  What takes effect in a partition, in the order of the steps, is then
what the cache of numbers does that is asked for the same requests.
-/

namespace SmpHashTable

open FillingCache (Ask Tally Agrees Named Synced valueOf)

/-! ### Working in batches -/

/-- Where a thread that works in batches stands. -/
structure Batching where
  past : List (List Msg)
  asked : List Msg
  rest : List Msg
  later : List (List Msg)
  /-- The elements it has inserted and not marked ready, with their partitions. -/
  filling : List (ℕ × ℕ)
  deriving DecidableEq

namespace Batching

def start (bs : List (List Msg)) : Batching := ⟨[], [], [], bs, []⟩

/-- The next request takes effect; it inserts the elements `new`. -/
def take (x : Batching) (a : Ask ℕ) (new : List (ℕ × ℕ)) : Option Batching :=
  match x.rest with
  | q :: rest =>
      if q.ask = some a then
        some { x with asked := x.asked ++ [q], rest := rest, filling := x.filling ++ new }
      else none
  | [] =>
      match x.later with
      | (q :: rest) :: later =>
          if x.filling = [] ∧ q.ask = some a then some ⟨x.past ++ [x.asked], [q], rest, later, new⟩ else none
      | _ => none

/-- Thread `t` works in batches, and no other thread looks up or inserts anything. -/
def apply (t : ℕ) (x : Batching) : LockingPoint → Option Batching
  | .lookup t' _ key _ => if t' = t then x.take (.lookup key) [] else none
  | .insert t' s key size e => if t' = t then x.take (.insert key size) [(s, e)] else none
  | .publish s e => if x.rest = [] then some { x with filling := x.filling.filter (· ≠ (s, e)) } else none
  | .drop _ _ => some x

theorem take_cases {x x' : Batching} {a : Ask ℕ} {new : List (ℕ × ℕ)} (h : x.take a new = some x') :
    ∃ q, q.ask = some a ∧ ((∃ rest, x.rest = q :: rest ∧
        x' = { x with asked := x.asked ++ [q], rest := rest, filling := x.filling ++ new }) ∨
      (x.rest = [] ∧ x.filling = [] ∧ ∃ rest later, x.later = (q :: rest) :: later ∧
        x' = ⟨x.past ++ [x.asked], [q], rest, later, new⟩)) := by
  unfold take at h
  split at h
  · next q rest hrest =>
    split at h
    · next hask =>
      cases h
      exact ⟨q, hask, Or.inl ⟨rest, hrest, rfl⟩⟩
    · cases h
  · next hrest =>
    split at h
    · next q rest later hlater =>
      split at h
      · next hcond =>
        cases h
        exact ⟨q, hcond.2, Or.inr ⟨hrest, hcond.1, rest, later, hlater, rfl⟩⟩
      · cases h
    · cases h

/-- What server `s` has answered. -/
def tally (limit n s : ℕ) (x : Batching) : Tally ℕ :=
  (Tally.start.rounds limit (x.past.map (asksTo n s))).serve limit (asksTo n s x.asked)

/-- What the next request meets: at the end of a batch all values are published. -/
def standing (limit n s : ℕ) (x : Batching) : Tally ℕ :=
  if x.rest = [] then (x.tally limit n s).settle else x.tally limit n s

end Batching

theorem Msg.key_of_ask {q : Msg} {a : Ask ℕ} (h : q.ask = some a) : q.key = a.key := by
  cases q with
  | lookup key => cases h; rfl
  | insert key size => cases h; rfl
  | release e => cases h
  | markReady e => cases h

/-- One more request for server `s`, if it is for that server. -/
theorem asksTo_concat {n s : ℕ} (batch : List Msg) {q : Msg} {a : Ask ℕ} (hask : q.ask = some a) :
    asksTo n s (batch ++ [q]) = asksTo n s batch ++ if hashGetServer n a.key = s then [a] else [] := by
  rw [asksTo, List.filter_append, List.filterMap_append, ← Msg.key_of_ask hask]
  by_cases hs : hashGetServer n q.key = s
  · rw [if_pos hs, List.filter_cons_of_pos (by simpa using hs), List.filter_nil,
      List.filterMap_cons_some hask]
    rfl
  · rw [if_neg hs, List.filter_cons_of_neg (by simpa using hs)]
    rfl

/-- **A request takes effect** in the cache of numbers of its server. -/
theorem Batching.take_tally {limit n s : ℕ} {x x' : Batching} {a : Ask ℕ} {new : List (ℕ × ℕ)}
    (h : x.take a new = some x') : x'.tally limit n s
      = (x.standing limit n s).serve limit (if hashGetServer n a.key = s then [a] else []) := by
  obtain ⟨q, hask, ⟨rest, hrest, rfl⟩ | ⟨hrest, -, rest, later, -, rfl⟩⟩ := Batching.take_cases h
  · have hne : ¬ x.rest = [] := by
      rw [hrest]
      exact List.cons_ne_nil _ _
    rw [Batching.standing, if_neg hne, Batching.tally, Batching.tally, asksTo_concat _ hask, Tally.serve_append]
  · have hone := asksTo_concat (n := n) (s := s) [] hask
    rw [Batching.standing, if_pos hrest, Batching.tally, Batching.tally, List.map_append, Tally.rounds_append]
    exact congrArg _ hone

/-! ### One partition -/

/-- What the requests of partition `s` found or made. -/
def foundIn (s : ℕ) (pts : List LockingPoint) : List (Option ℕ) := pts.filterMap fun
  | .lookup _ s' _ hit => if s' = s then some hit else none
  | .insert _ s' _ _ e => if s' = s then some (some e) else none
  | _ => none

theorem foundIn_append (s : ℕ) (pts pts' : List LockingPoint) :
    foundIn s (pts ++ pts') = foundIn s pts ++ foundIn s pts' := List.filterMap_append ..

/-- The partition of a request is the one of its key. -/
def LockingPoint.Aimed (n : ℕ) : LockingPoint → Prop
  | .lookup _ s key _ => hashGetServer n key = s
  | .insert _ s key _ _ => hashGetServer n key = s
  | _ => True

/-- The cache of partition `s` and the cache of numbers. -/
structure Serial (limit n s : ℕ) (x : Batching) (vals : List (Option ℕ)) (cache : FillingCache.Cache ℕ ℕ) :
    Prop where
  named : Named vals cache (x.standing limit n s)
  synced : Synced vals cache (x.tally limit n s)
  filling : ∀ e ∈ cache.filling, (s, e) ∈ x.filling

section

variable {limit n s : ℕ} {x x' : Batching} {vals : List (Option ℕ)} {cache : FillingCache.Cache ℕ ℕ} {a : Ask ℕ}
  {new : List (ℕ × ℕ)}

/-- What is filled at the next request was inserted in its batch. -/
theorem Serial.synced_standing (h : Serial limit n s x vals cache) (htake : x.take a new = some x') :
    Synced vals cache (x.standing limit n s) := by
  obtain ⟨q, -, ⟨rest, hrest, -⟩ | ⟨-, hfilling, -⟩⟩ := Batching.take_cases htake
  · have hne : ¬ x.rest = [] := by
      rw [hrest]
      exact List.cons_ne_nil _ _
    rw [Batching.standing, if_neg hne]
    exact h.synced
  · intro e he
    have hmem := h.filling e he
    rw [hfilling] at hmem
    cases hmem

theorem Batching.take_filling (htake : x.take a new = some x') : x'.filling = x.filling ++ new := by
  obtain ⟨q, -, ⟨rest, -, rfl⟩ | ⟨-, hfilling, rest, later, -, rfl⟩⟩ := Batching.take_cases htake
  · rfl
  · rw [hfilling]
    rfl

/-- The batch may be at its end. -/
theorem Batching.standing_of (h : Named vals cache (x.tally limit n s)) : Named vals cache (x.standing limit n s) := by
  rw [Batching.standing]
  split
  · exact h.settle
  · exact h

/-- A request takes effect in this partition. -/
theorem Serial.request (h : Serial limit n s x vals cache) (htake : x.take a new = some x')
    (hs : hashGetServer n a.key = s) {op : FillingCache.Op ℕ ℕ} (hop : op.ask = some a) (hnew : op.New limit cache)
    (hfill : ∀ e ∈ (op.run limit cache).1.filling, e ∈ cache.filling ∨ (s, e) ∈ new) :
    Serial limit n s x' (vals ++ [op.returns (op.run limit cache).2]) (op.run limit cache).1 := by
  obtain ⟨hnamed, hsynced⟩ := h.named.request (h.synced_standing htake) hop hnew
  have htally : x'.tally limit n s = (x.standing limit n s).ask limit a := by
    rw [Batching.take_tally htake, if_pos hs]
    rfl
  rw [← htally] at hnamed hsynced
  refine ⟨Batching.standing_of hnamed, hsynced, fun e he => ?_⟩
  rw [Batching.take_filling htake]
  rcases hfill e he with he | he
  · exact List.mem_append_left _ (h.filling e he)
  · exact List.mem_append_right _ he

/-- A request takes effect in another partition. -/
theorem Serial.aside (h : Serial limit n s x vals cache) (htake : x.take a new = some x')
    (hs : hashGetServer n a.key ≠ s) : Serial limit n s x' vals cache := by
  have htally : x'.tally limit n s = x.standing limit n s := by
    rw [Batching.take_tally htake, if_neg hs]
    rfl
  refine ⟨Batching.standing_of (htally ▸ h.named), htally ▸ h.synced_standing htake, fun e he => ?_⟩
  rw [Batching.take_filling htake]
  exact List.mem_append_left _ (h.filling e he)

/-- An element is marked ready between two batches. -/
theorem Serial.publish (h : Serial limit n s x vals cache) (hrest : x.rest = []) (s' e : ℕ) :
    Serial limit n s { x with filling := x.filling.filter (· ≠ (s', e)) } vals
      (if s' = s then (FillingCache.publish e cache).1 else cache) := by
  have hnamed := h.named
  by_cases hs : s' = s
  · subst hs
    rw [if_pos rfl]
    rw [Batching.standing, if_pos hrest] at hnamed
    refine ⟨?_, fun v hv => h.synced v (List.mem_of_mem_filter hv), fun v hv => ?_⟩
    · rw [Batching.standing, if_pos hrest]
      exact hnamed.publish fun j hj => (by cases hj)
    · obtain ⟨hv, hne⟩ := List.mem_filter.mp hv
      refine List.mem_filter.mpr ⟨h.filling v hv, decide_eq_true fun heq => ?_⟩
      exact of_decide_eq_true hne (Prod.mk.inj heq).2
  · rw [if_neg hs]
    refine ⟨hnamed, h.synced, fun v hv => List.mem_filter.mpr ⟨h.filling v hv, decide_eq_true fun heq => ?_⟩⟩
    exact hs (Prod.mk.inj heq).1.symm

end

/-- **The points of a run, one by one.** -/
theorem serial_run {limit n s t : ℕ} {bs : List (List Msg)} {pts : List LockingPoint} {x : Batching}
    (hx : Runs.replay (Batching.apply t) (Batching.start bs) pts = some x) (haimed : ∀ p ∈ pts, p.Aimed n)
    {cache : FillingCache.Cache ℕ ℕ} (hc : FillingCache.Explains limit (effects s pts).1 cache) :
    Serial limit n s x (foundIn s pts) cache := by
  induction pts using List.reverseRecOn generalizing x cache with
  | nil =>
      cases hx
      cases hc
      exact ⟨Named.start, fun e he => (by cases he), fun e he => (by cases he)⟩
  | append_singleton pts p ih =>
      rw [Runs.replay_append] at hx
      obtain ⟨y, hy, hx⟩ := Option.bind_eq_some_iff.mp hx
      obtain ⟨y', hp, hx⟩ := Option.bind_eq_some_iff.mp hx
      cases hx
      have ih : ∀ {c}, FillingCache.Explains limit (effects s pts).1 c → Serial limit n s y (foundIn s pts) c :=
        fun hc => ih hy (fun q hq => haimed q (List.mem_append_left _ hq)) hc
      have hthis := haimed p (List.mem_append_right _ List.mem_cons_self)
      rw [effects_append, List.foldl_cons, List.foldl_nil] at hc
      rw [foundIn_append]
      cases p with
      | lookup t' s' key hit =>
          simp only [Batching.apply] at hp
          split at hp
          case isFalse => cases hp
          case isTrue =>
          by_cases hs : s' = s
          · subst hs
            rw [LockingPoint.follow, if_pos rfl] at hc
            obtain ⟨c, hc', hnew, hout, rfl⟩ := hc.init
            have hser := (ih hc').request hp hthis rfl hnew fun e he => Or.inl he
            have hfound : foundIn s' [.lookup t' s' key hit] = [hit] := by simp [foundIn]
            rw [hout] at hser
            rw [hfound]
            exact hser
          · rw [LockingPoint.follow, if_neg hs] at hc
            have hfound : foundIn s [.lookup t' s' key hit] = [] := by simp [foundIn, hs]
            rw [hfound, List.append_nil]
            exact (ih hc).aside hp fun heq => hs (hthis.symm.trans heq)
      | insert t' s' key size e =>
          simp only [Batching.apply] at hp
          split at hp
          case isFalse => cases hp
          case isTrue =>
          by_cases hs : s' = s
          · subst hs
            rw [LockingPoint.follow, if_pos rfl] at hc
            obtain ⟨c, hc', hnew, -, rfl⟩ := hc.init
            have hser := (ih hc').request hp hthis rfl hnew fun v hv =>
              (List.mem_cons.mp hv).symm.imp_right fun heq => by rw [heq]; exact List.mem_cons_self
            have hfound : foundIn s' [.insert t' s' key size e] = [some e] := by simp [foundIn]
            rw [hfound]
            exact hser
          · rw [LockingPoint.follow, if_neg hs] at hc
            have hfound : foundIn s [.insert t' s' key size e] = [] := by simp [foundIn, hs]
            rw [hfound, List.append_nil]
            exact (ih hc).aside hp fun heq => hs (hthis.symm.trans heq)
      | publish s' e =>
          simp only [Batching.apply] at hp
          split at hp
          case isFalse => cases hp
          case isTrue hrest =>
          cases hp
          rw [show foundIn s [.publish s' e] = [] from rfl, List.append_nil]
          by_cases hs : s' = s
          · rw [LockingPoint.follow, if_pos hs] at hc
            obtain ⟨c, hc', -, -, rfl⟩ := hc.init
            have hser := (ih hc').publish hrest s' e
            rw [if_pos hs] at hser
            exact hser
          · rw [LockingPoint.follow, if_neg hs] at hc
            have hser := (ih hc).publish hrest s' e
            rw [if_neg hs] at hser
            exact hser
      | drop s' e =>
          cases hp
          have hsame : (LockingPoint.follow s (effects s pts) (.drop s' e)).1 = (effects s pts).1 := by
            rw [LockingPoint.follow]
            split
            · rfl
            · rfl
          rw [hsame] at hc
          rw [show foundIn s [.drop s' e] = [] from rfl, List.append_nil]
          exact ih hc

/-! ### The requests and their results -/

/-- What the thread has asked for is what the batches say, and the results are what the partitions found. -/
structure Batching.Follows (n t : ℕ) (bs : List (List Msg)) (x : Batching) (pts : List LockingPoint) : Prop where
  plan : x.past ++ (x.asked ++ x.rest) :: x.later = [] :: bs
  length : (x.past.flatten ++ x.asked).length = (results t pts).length
  found : ∀ s, foundIn s pts = (((x.past.flatten ++ x.asked).zip (results t pts)).filter
    fun a => hashGetServer n a.1.key = s).map fun a => hitOf a.2

theorem Batching.follows_start (n t : ℕ) (bs : List (List Msg)) : Batching.Follows n t bs (Batching.start bs) [] :=
  ⟨rfl, rfl, fun _ => rfl⟩

/-- A request, made in partition `s` with the result `v`. -/
theorem Batching.Follows.request {n t s v : ℕ} {bs : List (List Msg)} {x x' : Batching} {pts : List LockingPoint}
    (h : Batching.Follows n t bs x pts) {a : Ask ℕ} {new : List (ℕ × ℕ)} (htake : x.take a new = some x')
    {p : LockingPoint} (hs : hashGetServer n a.key = s) (hresult : results t [p] = [v])
    (hfound : ∀ s', foundIn s' [p] = if s = s' then [hitOf v] else []) :
    Batching.Follows n t bs x' (pts ++ [p]) := by
  obtain ⟨q, hask, hcases⟩ := Batching.take_cases htake
  have hplan : x'.past ++ (x'.asked ++ x'.rest) :: x'.later = [] :: bs ∧
      x'.past.flatten ++ x'.asked = (x.past.flatten ++ x.asked) ++ [q] := by
    have hplan := h.plan
    rcases hcases with ⟨rest, hrest, rfl⟩ | ⟨hrest, -, rest, later, hlater, rfl⟩
    · rw [hrest] at hplan
      refine ⟨?_, (List.append_assoc ..).symm⟩
      rw [← hplan]
      simp
    · rw [hrest, hlater] at hplan
      refine ⟨?_, by rw [List.flatten_concat]⟩
      rw [← hplan]
      simp
  refine ⟨hplan.1, ?_, fun s' => ?_⟩
  · rw [hplan.2, results_append, hresult, List.length_append, h.length, List.length_append]
    rfl
  · rw [hplan.2, results_append, hresult, foundIn_append, hfound, List.zip_append h.length, List.filter_append,
      List.map_append, ← h.found s']
    have hkey : hashGetServer n q.key = s := (congrArg _ (Msg.key_of_ask hask)).trans hs
    by_cases heq : s = s'
    · rw [if_pos heq, List.zip_cons_cons, List.zip_nil_right, List.filter_cons_of_pos (by simpa [hkey] using heq)]
      rfl
    · rw [if_neg heq, List.zip_cons_cons, List.zip_nil_right, List.filter_cons_of_neg (by simpa [hkey] using heq)]
      rfl

theorem Batching.Follows.apply {n t : ℕ} {bs : List (List Msg)} {x x' : Batching} {pts : List LockingPoint}
    (h : Batching.Follows n t bs x pts) {p : LockingPoint} (haimed : p.Aimed n) (hp : x.apply t p = some x') :
    Batching.Follows n t bs x' (pts ++ [p]) := by
  have hsilent : results t [p] = [] → (∀ s, foundIn s [p] = []) → x'.past = x.past → x'.asked = x.asked →
      x'.rest = x.rest → x'.later = x.later → Batching.Follows n t bs x' (pts ++ [p]) := by
    intro hresult hfound hpast hasked hrest hlater
    refine ⟨by rw [hpast, hasked, hrest, hlater]; exact h.plan, ?_, fun s => ?_⟩
    · rw [hpast, hasked, results_append, hresult, List.append_nil]
      exact h.length
    · rw [hpast, hasked, results_append, hresult, List.append_nil, foundIn_append, hfound, List.append_nil]
      exact h.found s
  cases p with
  | lookup t' s key hit =>
      simp only [Batching.apply] at hp
      split at hp
      case isFalse => cases hp
      case isTrue ht =>
      refine h.request hp haimed (v := hit.elim 0 valuePtr) (by simp [results, ht]) fun s' => ?_
      have hback : hitOf (hit.elim 0 valuePtr) = hit := by
        cases hit with
        | none => rfl
        | some e => exact hitOf_valuePtr e
      rw [hback]
      by_cases heq : s = s' <;> simp [foundIn, heq]
  | insert t' s key size e =>
      simp only [Batching.apply] at hp
      split at hp
      case isFalse => cases hp
      case isTrue ht =>
      refine h.request hp haimed (v := valuePtr e) (by simp [results, ht]) fun s' => ?_
      rw [hitOf_valuePtr]
      by_cases heq : s = s' <;> simp [foundIn, heq]
  | publish s e =>
      simp only [Batching.apply] at hp
      split at hp
      case isFalse => cases hp
      case isTrue =>
      cases hp
      exact hsilent rfl (fun _ => rfl) rfl rfl rfl rfl
  | drop s e =>
      cases hp
      exact hsilent rfl (fun _ => rfl) rfl rfl rfl rfl

/-! ### Whole runs -/

/-- A call is under way in the partition of its key. -/
def LockingPc.Aimed (n : ℕ) : LockingPc → Prop
  | .lookup s key => hashGetServer n key = s
  | pc => ∀ call, pc.call = some call → hashGetServer n call.key = call.s

namespace Locking

variable {st st' : Locking} {log evs : List LockingEvent} {t n : ℕ}

/-- A call stays in the partition of its key and takes effect there. -/
theorem Goes.aimed {pc pc' : LockingPc} {pts : List LockingPoint} (h : Goes st' t pc pc' evs pts)
    (hpc : pc.Aimed n) : pc'.Aimed n ∧ ∀ p ∈ pts, p.Aimed n := by
  cases h with
  | freed e ret =>
      refine ⟨?_, fun p hp => by cases hp⟩
      cases ret with
      | charge call => exact hpc
      | evict call => exact hpc
      | client => exact fun call hcall => by cases hcall
  | found s key e =>
      exact ⟨fun call hcall => (by cases hcall), fun p hp => List.mem_singleton.mp hp ▸ hpc⟩
  | missed s key =>
      exact ⟨fun call hcall => (by cases hcall), fun p hp => List.mem_singleton.mp hp ▸ hpc⟩
  | linked call e hkey =>
      exact ⟨fun call hcall => (by cases hcall), fun p hp => List.mem_singleton.mp hp ▸ hpc call rfl⟩
  | taken | left => exact ⟨fun call hcall => (by cases hcall), fun p hp => by cases hp⟩
  | dropping | dropped | evicting | evicted =>
      exact ⟨hpc, fun p hp => List.mem_singleton.mp hp ▸ trivial⟩
  | absent | charged => exact ⟨hpc, fun p hp => by cases hp⟩

theorem step_aimed {a : LockingAct} (hstep : st.step a = .ok (st', evs))
    (haimed : ∀ t, (st.pc t).Aimed st.table.nservers) :
    (∀ t, (st'.pc t).Aimed st.table.nservers) ∧ ∀ p ∈ st.points a, p.Aimed st.table.nservers := by
  have hacquire : ∀ {t s : ℕ} {pc : LockingPc}, st.acquire t s pc = .ok (st', evs) → st'.pc t = pc := by
    intro t s pc hacq
    unfold Locking.acquire at hacq
    split at hacq
    · cases hacq
      exact Function.update_self ..
    · cases hacq
  have hclient : ∀ {st₁ : Locking} {t e : ℕ} {f : ℕ → ℕ}, st.update t e f .client = .ok st₁ →
      (st₁.pc t).Aimed st.table.nservers := by
    intro st₁ t e f hup
    rcases update_pc hup with hpc | hpc
    · rw [hpc]
      exact fun call hcall => by cases hcall
    · rw [hpc]
      exact fun call hcall => by cases hcall
  have hthread : (st'.pc a.thread).Aimed st.table.nservers ∧ ∀ p ∈ st.points a, p.Aimed st.table.nservers := by
    cases a with
    | lookup t key =>
        refine ⟨?_, fun p hp => by cases hp⟩
        rw [LockingAct.thread, hacquire hstep]
        exact rfl
    | insert t key size =>
        refine ⟨?_, fun p hp => by cases hp⟩
        rw [LockingAct.thread, hacquire hstep]
        intro call hcall
        cases hcall
        rfl
    | release t e =>
        simp only [Locking.step] at hstep
        split at hstep
        · obtain ⟨st₁, hup, heq⟩ := Outcome.map_ok.mp hstep
          cases heq
          exact ⟨hclient hup, fun p hp => by cases hp⟩
        · cases hstep
    | markReady t e =>
        simp only [Locking.step] at hstep
        split at hstep
        · obtain ⟨st₁, hup, heq⟩ := Outcome.map_ok.mp hstep
          cases heq
          exact ⟨hclient hup, fun p hp => List.mem_singleton.mp hp ▸ trivial⟩
        · cases hstep
    | next t alloc tscs => exact (next_goes hstep).aimed (haimed t)
  refine ⟨fun t => ?_, hthread.2⟩
  obtain ⟨pc, hpc⟩ := (step_frame hstep).own
  by_cases ht : t = a.thread
  · rw [ht]
    exact hthread.1
  · rw [hpc, Function.update_of_ne ht]
    exact haimed t

end Locking

/-- Every request takes effect in the partition of its key. -/
theorem Locking.Served.aimed {maxSize nservers : ℕ} {st : Locking} {log : List LockingEvent}
    {pts : List LockingPoint} (h : Locking.Served maxSize nservers st log pts) : ∀ p ∈ pts, p.Aimed nservers := by
  have hall : st.table.nservers = nservers ∧ (∀ t, (st.pc t).Aimed nservers) ∧ ∀ p ∈ pts, p.Aimed nservers := by
    refine Runs.Noted.invariant (P := fun st _ pts => st.table.nservers = nservers ∧
      (∀ t, (st.pc t).Aimed nservers) ∧ ∀ p ∈ pts, p.Aimed nservers)
      ⟨rfl, fun _ _ hcall => (by cases hcall), fun _ hp => (by cases hp)⟩ ?_ h
    rintro st st' log evs pts a ⟨hn, hpc, hpts⟩ - hstep
    obtain ⟨hpc', hpts'⟩ := Locking.step_aimed hstep (hn ▸ hpc)
    rw [hn] at hpc' hpts'
    refine ⟨(Locking.step_frame hstep).nservers.trans hn, hpc', fun p hp => ?_⟩
    rcases List.mem_append.mp hp with hp | hp
    · exact hpts p hp
    · exact hpts' p hp
  exact hall.2.2

section

variable {maxSize nservers t s : ℕ} {st : Locking} {log : List LockingEvent} {pts : List LockingPoint}
  {bs : List (List Msg)} {x : Batching}

theorem Locking.Served.follows (h : Locking.Served maxSize nservers st log pts)
    (hx : Runs.replay (Batching.apply t) (Batching.start bs) pts = some x) :
    Batching.Follows nservers t bs x pts := by
  refine (Runs.replay_history (P := fun x pts => (∀ p ∈ pts, p.Aimed nservers) → Batching.Follows nservers t bs x pts)
    (fun _ => Batching.follows_start nservers t bs) (fun h ha haimed => ?_) hx) h.aimed
  exact (h fun p hp => haimed p (List.mem_append_left _ hp)).apply
    (haimed _ (List.mem_append_right _ List.mem_cons_self)) ha

/-- The requests of this batch that have taken effect come first. -/
theorem Batching.asks_eq (n s : ℕ) (x : Batching) :
    asksTo n s (x.asked ++ x.rest) = asksTo n s x.asked ++ asksTo n s x.rest := by
  rw [asksTo, List.filter_append, List.filterMap_append]
  rfl

/-- The values returned so far are those that are expected. -/
theorem locking_agrees (hn : 0 < nservers) (hmax : maxSize / nservers < 2 ^ 63)
    (h : Locking.Served maxSize nservers st log pts) (hlen : log.length + 1 < 2 ^ 63)
    (hx : Runs.replay (Batching.apply t) (Batching.start bs) pts = some x) (hs : s < nservers) :
    Agrees (expected (maxSize / nservers) nservers s bs).answers (valuesAt nservers s bs (returnedBy t log)) := by
  obtain ⟨hlinear, hnservers⟩ := h.linear hn hmax
  obtain ⟨cache, hc, -⟩ := hlinear.cached hlen (hnservers ▸ hs)
  have hfollows := h.follows hx
  have hanswered : Agrees (x.tally (maxSize / nservers) nservers s).answers (foundIn s pts) := by
    have hnamed := (serial_run (n := nservers) hx h.aimed hc).named.answered
    rw [Batching.standing] at hnamed
    split at hnamed
    · exact hnamed
    · exact hnamed
  refine hanswered.prefix (answers_of_plan hfollows.plan (x.asks_eq nservers s)) ?_
  rw [hfollows.found s, hlinear.results t]
  refine valuesAt_prefix nservers s _ ?_ (hfollows.length.trans (by rw [hlinear.results t]))
  rw [requests_of_plan hfollows.plan]
  exact List.prefix_append _ _

/-- A thread that has finished has got a value for every request. -/
theorem locking_returned (hn : 0 < nservers) (hmax : maxSize / nservers < 2 ^ 63)
    (h : Locking.Served maxSize nservers st log pts)
    (hx : Runs.replay (Batching.apply t) (Batching.start bs) pts = some x) (hrest : x.rest = [])
    (hlater : x.later = []) (hidle : st.pc t = .idle) : (returnedBy t log).length = bs.flatten.length := by
  have hfollows := h.follows hx
  have hlength := hfollows.length
  rw [(h.linear hn hmax).1.results t, hidle, show LockingPc.idle.owed = [] from rfl, List.append_nil] at hlength
  rw [requests_of_plan hfollows.plan, hrest, hlater, ← hlength]
  simp

/-- A partition after a thread has finished. -/
theorem locking_entries (hn : 0 < nservers) (hmax : maxSize / nservers < 2 ^ 63)
    (h : Locking.Served maxSize nservers st log pts) (hlen : log.length + 1 < 2 ^ 63)
    (hx : Runs.replay (Batching.apply t) (Batching.start bs) pts = some x) (hrest : x.rest = [])
    (hlater : x.later = []) (hs : s < nservers) (hlock : st.lock s = none) :
    ((st.table.part s).lru.map (view st.table.mem)).map (fun e => (e.key, e.size))
      = (expected (maxSize / nservers) nservers s bs).cache.entries.map fun e => (e.key, e.size) := by
  obtain ⟨hlinear, hnservers⟩ := h.linear hn hmax
  obtain ⟨cache, hc, hfree⟩ := hlinear.cached hlen (hnservers ▸ hs)
  have hfollows := h.follows hx
  have hnamed := (serial_run (n := nservers) hx h.aimed hc).named
  rw [Batching.standing, if_pos hrest] at hnamed
  have hentries := congrArg (List.map fun e => (e.key, e.size)) hnamed.entries
  rw [List.map_map, List.map_map] at hentries
  rw [(hfree hlock).2, expected_of_plan hfollows.plan (x.asks_eq nservers s), hrest, hlater]
  exact hentries

end

/-- The batches of `batchesRun`, call by call. -/
def lockedBatchesRun : List LockingAct := List.flatten [
  .insert 0 5 8 :: List.replicate 4 (.next 0 (some 64) []),
  .lookup 0 5 :: List.replicate 2 (.next 0 (some 0) []), [.markReady 0 64],
  .lookup 0 5 :: List.replicate 3 (.next 0 (some 0) []),
  .insert 0 6 8 :: List.replicate 5 (.next 0 (some 256) [])]

def lockedBatchesEnd : Batching :=
  ⟨[[], [.insert 5 8, .lookup 5]], [.lookup 5, .insert 6 8], [], [], [(0, 256)]⟩

end SmpHashTable
