import SmpHashTable.Doqueries

/-!
# The three designs

With design 3 `doqueries` calls `locking_hash_lookup` and `locking_hash_insert` one after the other, and its caller
uses `atomic_release_value` and `atomic_mark_ready`.  Such a thread works in batches too, so that a program that is
run with one of the three designs gets the same as with another.
-/

namespace SmpHashTable

open FillingCache (Ask Agrees)

/-! ### The caller -/

/-- The next request is made and answered with `v`. -/
def Talk.answer (x : Talk) (v : ℕ) : Option Talk :=
  match x.next with
  | m :: _ => (x.send m).bind fun x => x.obtain v
  | [] => none

/-- Thread `t` works in batches on a locking table, and no other thread does anything. -/
def Talk.follow (t : ℕ) (x : Talk) : LockingEvent → Option Talk
  | .returned t' v => if t' = t then x.answer v else none
  | .gave t' e => if t' = t then x.send (.release e) else none
  | .marked t' e => if t' = t then x.send (.markReady e) else none
  | _ => some x

/-- The calls that `doqueries` and its caller make next, on a locking table. -/
def Talk.Makes (x : Talk) : LockingAct → Prop
  | .lookup _ key => x.next.head? = some (.lookup key)
  | .insert _ key size => x.next.head? = some (.insert key size)
  | .release _ e => x.Settled ∧ .release e ∈ x.handles
  | .markReady _ e => x.Settled ∧ .markReady e ∈ x.handles
  | .next _ _ _ => True

instance Talk.decidableMakes (x : Talk) : (a : LockingAct) → Decidable (x.Makes a)
  | .lookup _ _ => inferInstanceAs (Decidable (_ = _))
  | .insert _ _ _ => inferInstanceAs (Decidable (_ = _))
  | .release _ _ => inferInstanceAs (Decidable (_ ∧ _))
  | .markReady _ _ => inferInstanceAs (Decidable (_ ∧ _))
  | .next _ _ _ => isTrue trivial

/-- Thread `t` is a caller of `doqueries` for the batches `bs`. -/
def LockingAct.Doqueries (t : ℕ) (bs : List (List Msg)) (log : List LockingEvent) (a : LockingAct) : Prop :=
  a.thread = t ∧ ∃ x, Runs.replay (Talk.follow t) (Talk.start bs) log = some x ∧ x.Makes a

/-- Whether the caller does `a` next. -/
instance decidableMakes (t : ℕ) (bs : List (List Msg)) (log : List LockingEvent) (a : LockingAct) :
    Decidable (∃ x, Runs.replay (Talk.follow t) (Talk.start bs) log = some x ∧ x.Makes a) :=
  match h : Runs.replay (Talk.follow t) (Talk.start bs) log with
  | some x => decidable_of_iff (x.Makes a) (by simp)
  | none => isFalse (by simp)

instance LockingAct.decidableDoqueries (t : ℕ) (bs : List (List Msg)) (log : List LockingEvent) (a : LockingAct) :
    Decidable (a.Doqueries t bs log) := inferInstanceAs (Decidable (_ ∧ _))

/-- The runs of such a thread, with what takes effect. -/
def Locking.Doqueries (maxSize nservers t : ℕ) (bs : List (List Msg)) :
    Locking → List LockingEvent → List LockingPoint → Prop :=
  Runs.Noted Locking.step (fun _ log a => a.Doqueries t bs log ∧ a.Served) Locking.points
    (.init (createHashTable maxSize nservers .lru))

/-! ### Where the thread stands -/

/-- What the calls of the thread have returned and what they have done agree; `taking` is the element of a lookup that
has not taken its reference yet. -/
structure Talk.Near (st : Locking) (log : List LockingEvent) (taking : Option ℕ) (x : Talk) (y : Batching) :
    Prop where
  past : y.past = x.past
  asked : y.asked = x.asked
  rest : y.rest = x.rest
  later : y.later = x.later
  awaited : x.awaited = []
  released : ∀ e, x.handles.count (.release e) = SmpHashTable.handles log e + if taking = some e then 1 else 0
  marked : ∀ e, x.handles.count (.markReady e) = SmpHashTable.filling log e
  filling : ∀ p ∈ y.filling, 0 < SmpHashTable.filling log p.2 ∧
    hashGetServer st.table.nservers (st.table.mem.elem p.2).key = p.1

/-- A call makes the next request; from the point where it takes effect on, its result is known. -/
def LockingPc.Stage (st : Locking) (log : List LockingEvent) (x : Talk) (y : Batching) : LockingPc → Prop
  | .idle | .free _ .client => x.Near st log none y
  | .lookup _ key => x.Near st log none y ∧ x.next.head? = some (.lookup key)
  | .take _ e => ∃ x', x.answer (valuePtr e) = some x' ∧ x'.Near st log (some e) y
  | .leave _ v => ∃ x', x.answer v = some x' ∧ x'.Near st log none y
  | .insert call | .charge call | .evict call | .free _ (.charge call) | .free _ (.evict call) =>
      x.Near st log none y ∧ x.next.head? = some (.insert call.key call.size) ∧ 0 ≤ call.size ∧ call.size < 2 ^ 31

namespace Locking

section

variable {st st' : Locking} {log log' evs : List LockingEvent} {t : ℕ} {taking taking' : Option ℕ} {x : Talk}
  {y : Batching}

/-- A step that leaves the tallies as they are. -/
theorem near_keep (h : x.Near st log taking y) (hI : Inv st log) (hlocal : Local st st' t)
    (hn : st'.table.nservers = st.table.nservers)
    (hhandles : ∀ e, SmpHashTable.handles log' e + (if taking' = some e then 1 else 0)
      = SmpHashTable.handles log e + if taking = some e then 1 else 0)
    (hfilling : ∀ e, SmpHashTable.filling log' e = SmpHashTable.filling log e) : x.Near st' log' taking' y := by
  refine ⟨h.past, h.asked, h.rest, h.later, h.awaited, fun e => ?_, fun e => ?_, fun p hp => ?_⟩
  · rw [h.released, hhandles]
  · rw [h.marked, hfilling]
  · obtain ⟨hpos, hhome⟩ := h.filling p hp
    rw [hfilling, hn, (hlocal.keeps p.2 (hI.live_of_filling hpos)).1]
    exact ⟨hpos, hhome⟩

/-- **The next request takes effect** with the result `v`. -/
theorem near_answer (h : x.Near st log none y) (hI : Inv st log) (hlocal : Local st st' t)
    (hn : st'.table.nservers = st.table.nservers) {m : Msg} (hnext : x.next.head? = some m) {a : Ask ℕ}
    (hask : m.ask = some a) (v : ℕ) (new : List (ℕ × ℕ))
    (hhandles : ∀ e, SmpHashTable.handles log' e + (if taking' = some e then 1 else 0)
      = SmpHashTable.handles log e + (handleOf m v).toList.count (.release e))
    (hfilling : ∀ e, SmpHashTable.filling log' e
      = SmpHashTable.filling log e + (handleOf m v).toList.count (.markReady e))
    (hnew : ∀ p ∈ new, 0 < SmpHashTable.filling log' p.2 ∧
      hashGetServer st'.table.nservers (st'.table.mem.elem p.2).key = p.1) :
    ∃ x' y', x.answer v = some x' ∧ y.take a new = some y' ∧ x'.Near st' log' taking' y' := by
  have hm : m.isRequest = true := by rw [← Msg.isSome_ask, hask]; rfl
  obtain ⟨rest, hcons⟩ := List.head?_eq_some_iff.mp hnext
  have hold : ∀ p ∈ y.filling, 0 < SmpHashTable.filling log' p.2 ∧
      hashGetServer st'.table.nservers (st'.table.mem.elem p.2).key = p.1 := by
    intro p hp
    obtain ⟨hpos, hhome⟩ := h.filling p hp
    rw [hfilling, hn, (hlocal.keeps p.2 (hI.live_of_filling hpos)).1]
    exact ⟨Nat.add_pos_left hpos _, hhome⟩
  have hreleased : ∀ e, (x.handles ++ (handleOf m v).toList).count (.release e)
      = SmpHashTable.handles log' e + if taking' = some e then 1 else 0 := by
    intro e
    rw [List.count_append, h.released, hhandles, if_neg (by simp : ¬ none = some e), Nat.add_zero]
  have hmarked : ∀ e, (x.handles ++ (handleOf m v).toList).count (.markReady e)
      = SmpHashTable.filling log' e := by
    intro e
    rw [List.count_append, h.marked, hfilling]
  have hnext' := hcons
  rw [Talk.next] at hnext'
  split at hnext'
  · next q rest' hrest =>
    cases hnext'
    refine ⟨{ x with asked := x.asked ++ [m], rest := rest, handles := x.handles ++ (handleOf m v).toList },
      { y with asked := y.asked ++ [m], rest := rest, filling := y.filling ++ new }, ?_, ?_, ?_⟩
    · rw [Talk.answer, hcons]
      simp [Talk.send, Talk.obtain, hm, hrest, h.awaited]
    · rw [Batching.take, h.rest, hrest]
      exact if_pos hask
    · refine ⟨h.past, by rw [h.asked], rfl, h.later, h.awaited, hreleased, hmarked, fun p hp => ?_⟩
      exact (List.mem_append.mp hp).elim (hold p) (hnew p)
  · next hrest =>
    split at hnext'
    · next hcond =>
      cases hlater : x.later with
      | nil =>
          rw [hlater] at hnext'
          cases hnext'
      | cons b later =>
          rw [hlater] at hnext'
          have hb : b = m :: rest := hnext'
          subst hb
          -- nothing is being filled between two batches
          have hnil : y.filling = [] := by
            refine List.eq_nil_iff_forall_not_mem.mpr fun p hp => ?_
            have hpos := (h.filling p hp).1
            rw [← h.marked, hcond.2] at hpos
            exact absurd hpos (by simp)
          rw [hcond.2, List.nil_append] at hreleased hmarked
          refine ⟨⟨x.past ++ [x.asked], [m], rest, [], (handleOf m v).toList, later⟩,
            ⟨y.past ++ [y.asked], [m], rest, later, new⟩, ?_, ?_, ?_⟩
          · rw [Talk.answer, hcons]
            simp [Talk.send, Talk.obtain, hm, hrest, hlater, hcond.1, hcond.2]
          · rw [Batching.take, h.rest, hrest, h.later, hlater]
            exact if_pos ⟨hnil, hask⟩
          · exact ⟨by rw [h.past, h.asked], rfl, rfl, rfl, rfl, hreleased, hmarked, hnew⟩
    · cases hnext'

/-- The result of an insert of the next request. -/
theorem ask_insert {key : ℕ} {size : ℤ} (hpos : 0 ≤ size) (hlt : size < 2 ^ 31) :
    (Msg.insert key size).ask = some (.insert key (elemSize size)) := by
  show some (Ask.insert key (elemSize (intOfWord (wordOfInt size)))) = _
  rw [intOfWord_wordOfInt (by omega) hlt]

/-- **A step of a call in progress.** -/
theorem stage_next (h : (st.pc t).Stage st log x y) (hI : Inv st log) {alloc : Option ℕ} {tscs : List ℕ}
    (hstep : st.next t alloc tscs = .ok (st', evs)) :
    ∃ x' y', Runs.replay (Talk.follow t) x evs = some x' ∧
      Runs.replay (Batching.apply t) y (st.points (.next t alloc tscs)) = some y' ∧
      (st'.pc t).Stage st' (log ++ evs) x' y' := by
  have hlocal := next_local hstep
  have hn : st'.table.nservers = st.table.nservers := (next_frame hstep).nservers
  have haimed := hI.bodies.aimed t
  have hgoes := next_goes hstep
  -- a step that changes no tally
  have hkeep : ∀ {x : Talk} {taking : Option ℕ}, x.Near st log taking y → x.Near st' (log ++ []) taking y :=
    fun h => near_keep h hI hlocal hn (fun e => by rw [List.append_nil]) fun e => by rw [List.append_nil]
  generalize st.pc t = pc at h haimed hgoes
  generalize st'.pc t = pc' at hgoes
  generalize st.points (.next t alloc tscs) = pts at hgoes
  cases hgoes with
  | found s key e =>
      obtain ⟨hnear, hnext⟩ := h
      have hhandle : handleOf (.lookup key) (valuePtr e) = some (.release e) := by
        simp [handleOf, valuePtr, sizeofElem]
      have hhandles : ∀ a, SmpHashTable.handles (log ++ []) a + (if some e = some a then 1 else 0)
          = SmpHashTable.handles log a + (handleOf (.lookup key) (valuePtr e)).toList.count (.release a) := by
        intro a
        rw [hhandle, List.append_nil, Option.toList_some, List.count_singleton]
        simp
      have hfilling : ∀ a, SmpHashTable.filling (log ++ []) a
          = SmpHashTable.filling log a + (handleOf (.lookup key) (valuePtr e)).toList.count (.markReady a) := by
        intro a
        rw [hhandle, List.append_nil, Option.toList_some, List.count_singleton]
        simp
      obtain ⟨x', y', hx, hy, hnear'⟩ := near_answer hnear hI hlocal hn hnext rfl (valuePtr e) [] hhandles hfilling
        fun p hp => by cases hp
      refine ⟨x, y', rfl, ?_, x', hx, hnear'⟩
      simp [Runs.replay, Batching.apply, hy]
  | missed s key =>
      obtain ⟨hnear, hnext⟩ := h
      have hhandles : ∀ a, SmpHashTable.handles (log ++ []) a + (if none = some a then 1 else 0)
          = SmpHashTable.handles log a + (handleOf (.lookup key) 0).toList.count (.release a) := by
        intro a
        simp [handleOf]
      have hfilling : ∀ a, SmpHashTable.filling (log ++ []) a
          = SmpHashTable.filling log a + (handleOf (.lookup key) 0).toList.count (.markReady a) := by
        intro a
        simp [handleOf]
      obtain ⟨x', y', hx, hy, hnear'⟩ := near_answer hnear hI hlocal hn hnext rfl 0 [] hhandles hfilling
        fun p hp => by cases hp
      refine ⟨x, y', rfl, ?_, x', hx, hnear'⟩
      simp [Runs.replay, Batching.apply, hy]
  | taken s e =>
      obtain ⟨x', hx, hnear⟩ := h
      refine ⟨x, y, rfl, rfl, x', hx, near_keep hnear hI hlocal hn (fun a => ?_) fun a => (tallies_took log t e a).2.1⟩
      rw [(tallies_took log t e a).1]
      by_cases hae : e = a <;> simp [hae]
  | dropping call e => exact ⟨x, y, rfl, rfl, hkeep h.1, h.2⟩
  | dropped call e => exact ⟨x, y, rfl, rfl, hkeep h.1, h.2⟩
  | absent call => exact ⟨x, y, rfl, rfl, hkeep h.1, h.2⟩
  | charged call => exact ⟨x, y, rfl, rfl, hkeep h.1, h.2⟩
  | evicting call e => exact ⟨x, y, rfl, rfl, hkeep h.1, h.2⟩
  | evicted call e => exact ⟨x, y, rfl, rfl, hkeep h.1, h.2⟩
  | linked call e hkey =>
      obtain ⟨hnear, hnext, hpos, hlt⟩ := h
      have hhandle : handleOf (.insert call.key call.size) (valuePtr e) = some (.markReady e) := by
        simp [handleOf, valuePtr, sizeofElem]
      have hhandles : ∀ a, SmpHashTable.handles (log ++ [.inserted t e]) a + (if none = some a then 1 else 0)
          = SmpHashTable.handles log a
            + (handleOf (.insert call.key call.size) (valuePtr e)).toList.count (.release a) := by
        intro a
        rw [hhandle, (tallies_inserted log t e a).1, Option.toList_some, List.count_singleton]
        simp
      have hfilling : ∀ a, SmpHashTable.filling (log ++ [.inserted t e]) a = SmpHashTable.filling log a
          + (handleOf (.insert call.key call.size) (valuePtr e)).toList.count (.markReady a) := by
        intro a
        rw [hhandle, (tallies_inserted log t e a).2.1, Option.toList_some, List.count_singleton]
        by_cases hae : e = a <;> simp [hae]
      have hnew : ∀ p ∈ [(call.s, e)], 0 < SmpHashTable.filling (log ++ [.inserted t e]) p.2 ∧
          hashGetServer st'.table.nservers (st'.table.mem.elem p.2).key = p.1 := by
        intro p hp
        rw [List.mem_singleton.mp hp, (tallies_inserted log t e e).2.1, if_pos rfl, hkey, hn]
        exact ⟨Nat.succ_pos _, haimed call rfl⟩
      obtain ⟨x', y', hx, hy, hnear'⟩ := near_answer hnear hI hlocal hn hnext (ask_insert hpos hlt) (valuePtr e)
        [(call.s, e)] hhandles hfilling hnew
      refine ⟨x, y', rfl, ?_, x', hx, hnear'⟩
      simp [Runs.replay, Batching.apply, hy]
  | freed e ret =>
      have hfreed : ∀ {x : Talk}, x.Near st log none y → x.Near st' (log ++ [.freed t e]) none y := fun h =>
        near_keep h hI hlocal hn (fun a => by rw [(tallies_freed log t e a).1]) fun a => (tallies_freed log t e a).2.1
      cases ret with
      | client => exact ⟨x, y, rfl, rfl, hfreed h⟩
      | charge call => exact ⟨x, y, rfl, rfl, hfreed h.1, h.2⟩
      | evict call => exact ⟨x, y, rfl, rfl, hfreed h.1, h.2⟩
  | left s value =>
      obtain ⟨x', hx, hnear⟩ := h
      refine ⟨x', y, ?_, rfl, ?_⟩
      · simp [Runs.replay, Talk.follow, hx]
      · exact near_keep hnear hI hlocal hn (fun a => by rw [(tallies_returned log t value a).1])
          fun a => (tallies_returned log t value a).2.1

/-- A call begins. -/
theorem stage_acquire {s : ℕ} {pc : LockingPc} (hstep : st.acquire t s pc = .ok (st', evs)) :
    st.pc t = .idle ∧ st'.pc t = pc ∧ st'.table = st.table ∧ evs = [] := by
  unfold Locking.acquire at hstep
  split at hstep
  · next hidle _ =>
    cases hstep
    exact ⟨hidle, Function.update_self .., rfl, rfl⟩
  · cases hstep

/-- **A step of the caller.** -/
theorem stage_step (h : (st.pc t).Stage st log x y) (hI : Inv st log) {a : LockingAct} (ht : a.thread = t)
    (hmakes : x.Makes a) (hserved : a.Served) (hstep : st.step a = .ok (st', evs)) :
    ∃ x' y', Runs.replay (Talk.follow t) x evs = some x' ∧
      Runs.replay (Batching.apply t) y (st.points a) = some y' ∧ (st'.pc t).Stage st' (log ++ evs) x' y' := by
  subst ht
  have hn := (step_frame hstep).nservers
  -- a handle is given back by an atomic operation
  have hclient : ∀ {e : ℕ} {f : ℕ → ℕ} {x' : Talk} {y' : Batching}, st.update a.thread e f .client = .ok st' →
      x'.Near st' (log ++ evs) none y' → (st'.pc a.thread).Stage st' (log ++ evs) x' y' := by
    intro e f x' y' hup hnear
    rcases update_pc hup with hpc | hpc
    · rw [hpc]
      exact hnear
    · rw [hpc]
      exact hnear
  cases a with
  | next t alloc tscs => exact stage_next h hI hstep
  | lookup t key =>
      obtain ⟨hidle, hpc, htable, rfl⟩ := stage_acquire hstep
      rw [LockingAct.thread, hidle] at h
      refine ⟨x, y, rfl, rfl, ?_⟩
      rw [LockingAct.thread, hpc, List.append_nil]
      refine ⟨⟨h.past, h.asked, h.rest, h.later, h.awaited, h.released, h.marked, ?_⟩, hmakes⟩
      rw [htable]
      exact h.filling
  | insert t key size =>
      obtain ⟨hidle, hpc, htable, rfl⟩ := stage_acquire hstep
      rw [LockingAct.thread, hidle] at h
      refine ⟨x, y, rfl, rfl, ?_⟩
      rw [LockingAct.thread, hpc, List.append_nil]
      refine ⟨⟨h.past, h.asked, h.rest, h.later, h.awaited, h.released, h.marked, ?_⟩, hmakes, hserved⟩
      rw [htable]
      exact h.filling
  | release t e =>
      obtain ⟨hset, hmem⟩ := hmakes
      simp only [Locking.step] at hstep
      split at hstep
      · next hidle =>
        obtain ⟨st₁, hup, heq⟩ := Outcome.map_ok.mp hstep
        cases heq
        rw [LockingAct.thread, hidle] at h
        refine ⟨{ x with handles := x.handles.erase (.release e) }, y, ?_, rfl, hclient hup ?_⟩
        · have hm : (Msg.release e).isRequest = false := rfl
          simp [Runs.replay, Talk.follow, Talk.send, hm, hset, hmem, LockingAct.thread]
        · refine ⟨h.past, h.asked, h.rest, h.later, h.awaited, fun a => ?_, fun a => ?_, fun p hp => ?_⟩
          · rw [List.count_erase, h.released, (tallies_gave log t e a).1]
            by_cases hae : e = a <;> simp [hae]
          · rw [List.count_erase, h.marked, (tallies_gave log t e a).2.1]
            simp
          · obtain ⟨hpos, hhome⟩ := h.filling p hp
            rw [(tallies_gave log t e p.2).2.1, hn, ((update_local hup).keeps p.2 (hI.live_of_filling hpos)).1]
            exact ⟨hpos, hhome⟩
      · cases hstep
  | markReady t e =>
      obtain ⟨hset, hmem⟩ := hmakes
      simp only [Locking.step] at hstep
      split at hstep
      · next hidle =>
        obtain ⟨st₁, hup, heq⟩ := Outcome.map_ok.mp hstep
        cases heq
        rw [LockingAct.thread, hidle] at h
        set home := hashGetServer st.table.nservers (st.table.mem.elem e).key with hhome_eq
        refine ⟨{ x with handles := x.handles.erase (.markReady e) },
          { y with filling := y.filling.filter (· ≠ (home, e)) }, ?_, ?_, hclient hup ?_⟩
        · have hm : (Msg.markReady e).isRequest = false := rfl
          simp [Runs.replay, Talk.follow, Talk.send, hm, hset, hmem, LockingAct.thread]
        · have hrest : y.rest = [] := h.rest.trans hset.1
          simp [Runs.replay, Batching.apply, points, hrest, hhome_eq]
        · refine ⟨h.past, h.asked, h.rest, h.later, h.awaited, fun a => ?_, fun a => ?_, fun p hp => ?_⟩
          · rw [List.count_erase, h.released, (tallies_marked log t e a).1]
            simp
          · rw [List.count_erase, h.marked, (tallies_marked log t e a).2.1]
            by_cases hae : e = a <;> simp [hae]
          · obtain ⟨hp, hne⟩ := List.mem_filter.mp hp
            obtain ⟨hpos, hhome⟩ := h.filling p hp
            have hpe : ¬ e = p.2 := by
              intro heq
              have hpair : p = (home, e) := by
                rw [hhome_eq, heq, hhome]
              exact of_decide_eq_true hne hpair
            rw [(tallies_marked log t e p.2).2.1, if_neg hpe, hn,
              ((update_local hup).keeps p.2 (hI.live_of_filling hpos)).1]
            exact ⟨hpos, hhome⟩
      · cases hstep

end

end Locking

/-! ### Runs -/

section

variable {maxSize nservers t : ℕ} {bs : List (List Msg)} {st : Locking} {log : List LockingEvent}
  {pts : List LockingPoint}

/-- Thread `t` works in batches, and the others do nothing. -/
structure LockingWorking (t : ℕ) (bs : List (List Msg)) (st : Locking) (log : List LockingEvent)
    (pts : List LockingPoint) : Prop where
  idle : ∀ t', t' ≠ t → st.pc t' = .idle
  stage : ∃ x y, Runs.replay (Talk.follow t) (Talk.start bs) log = some x ∧
    Runs.replay (Batching.apply t) (Batching.start bs) pts = some y ∧ (st.pc t).Stage st log x y

theorem lockingWorking_init (maxSize nservers t : ℕ) (bs : List (List Msg)) :
    LockingWorking t bs (.init (createHashTable maxSize nservers .lru)) [] [] :=
  ⟨fun _ _ => rfl, Talk.start bs, Batching.start bs, rfl, rfl, rfl, rfl, rfl, rfl, rfl, fun _ => rfl, fun _ => rfl,
    fun _ hp => by cases hp⟩

/-- Only an idle thread makes a call. -/
theorem LockingPc.Stage.ok {x : Talk} {y : Batching} {a : LockingAct} (hidle : st.pc a.thread = .idle)
    (h : (st.pc a.thread).Stage st log x y) (hmakes : x.Makes a) : a.Ok log := by
  rw [hidle] at h
  cases a with
  | release t e =>
      have hpos : 0 < x.handles.count (.release e) := List.count_pos_iff.mpr hmakes.2
      rw [h.released, if_neg (by simp : ¬ none = some e), Nat.add_zero] at hpos
      exact hpos
  | markReady t e =>
      have hpos : 0 < x.handles.count (.markReady e) := List.count_pos_iff.mpr hmakes.2
      rw [h.marked] at hpos
      exact hpos
  | lookup t key => trivial
  | insert t key size => trivial
  | next t alloc tscs => trivial

/-- **A caller of `doqueries` keeps the contract of the locking table and works in batches.** -/
theorem Locking.Doqueries.working (hn : 0 < nservers) (hmax : maxSize / nservers < 2 ^ 63)
    (h : Locking.Doqueries maxSize nservers t bs st log pts) :
    Locking.Served maxSize nservers st log pts ∧ LockingWorking t bs st log pts := by
  refine Runs.Noted.invariant (P := fun st log pts => Locking.Served maxSize nservers st log pts ∧
    LockingWorking t bs st log pts) ⟨.start, lockingWorking_init maxSize nservers t bs⟩ ?_ h
  rintro st st' log evs pts a ⟨hserved, hwork⟩ ⟨⟨ht, x₁, hx₁, hmakes⟩, henv⟩ hstep
  obtain ⟨x, y, hx, hy, hstage⟩ := hwork.stage
  rw [hx, Option.some.injEq] at hx₁
  subst hx₁
  have hI := (hserved.linear hn hmax).1.inv
  have hok : a.Ok log := by
    rcases Locking.step_starts hstep with ⟨t', alloc, tscs, rfl⟩ | hstarts
    · trivial
    · exact LockingPc.Stage.ok hstarts.idle (ht ▸ hstage) hmakes
  obtain ⟨x', y', hevs, hpts, hstage'⟩ := Locking.stage_step hstage hI ht hmakes henv hstep
  refine ⟨hserved.step ⟨hok, henv⟩ hstep, fun t' hne => ?_, x', y', ?_, ?_, hstage'⟩
  · obtain ⟨pc, hpc⟩ := (Locking.step_frame hstep).own
    rw [hpc, Function.update_of_ne (ht ▸ hne)]
    exact hwork.idle t' hne
  · rw [Runs.replay_append, hx]
    exact hevs
  · rw [Runs.replay_append, hy]
    exact hpts

/-- A thread that has been returned a value for every request of its batches has finished, and holds no lock. -/
theorem Locking.Doqueries.done (hn : 0 < nservers) (hmax : maxSize / nservers < 2 ^ 63)
    (h : Locking.Doqueries maxSize nservers t bs st log pts) (hne : ∀ b ∈ bs, b ≠ [])
    (hall : (returnedBy t log).length = bs.flatten.length) :
    ∃ y, Runs.replay (Batching.apply t) (Batching.start bs) pts = some y ∧ y.rest = [] ∧ y.later = [] ∧
      ∀ s, st.lock s = none := by
  obtain ⟨hserved, hwork⟩ := h.working hn hmax
  obtain ⟨x, y, -, hy, hstage⟩ := hwork.stage
  obtain ⟨hlinear, -⟩ := hserved.linear hn hmax
  have hfollows := hserved.follows hy
  have hlen := hfollows.length
  have hplan := congrArg List.length (requests_of_plan hfollows.plan)
  rw [hlinear.results t] at hlen
  simp only [List.length_append] at hlen hplan
  have hrest : y.rest = [] := List.eq_nil_of_length_eq_zero (by omega)
  have hlater : y.later = [] :=
    later_of_plan hfollows.plan hne (List.eq_nil_of_length_eq_zero (by omega))
  have howed : (st.pc t).owed = [] := List.eq_nil_of_length_eq_zero (by omega)
  refine ⟨y, hy, hrest, hlater, fun s => ?_⟩
  -- no call is left to make
  have hnothing : ∀ {m : Msg}, x.Near st log none y → x.next.head? = some m → False := by
    intro m hnear hnext
    have hnil : x.next = [] := by
      have hxrest : x.rest = [] := hnear.rest.symm.trans hrest
      have hxlater : x.later = [] := hnear.later.symm.trans hlater
      simp [Talk.next, hxrest, hxlater]
    rw [hnil] at hnext
    cases hnext
  have hholds : (st.pc t).holds = none := by
    cases hpc : st.pc t with
    | idle => rfl
    | lookup s key =>
        rw [hpc] at hstage
        exact (hnothing hstage.1 hstage.2).elim
    | take s e =>
        rw [hpc] at howed
        cases howed
    | leave s value =>
        rw [hpc] at howed
        cases howed
    | free e ret =>
        rw [hpc] at hstage
        cases ret with
        | client => rfl
        | charge call => exact (hnothing hstage.1 hstage.2.1).elim
        | evict call => exact (hnothing hstage.1 hstage.2.1).elim
    | insert call | charge call | evict call =>
        rw [hpc] at hstage
        exact (hnothing hstage.1 hstage.2.1).elim
  cases hlock : st.lock s with
  | none => rfl
  | some t' =>
      have hthis := (hlinear.inv.bodies.holding t' s).mpr hlock
      by_cases ht : t' = t
      · rw [ht, hholds] at hthis
        cases hthis
      · rw [hwork.idle t' ht] at hthis
        cases hthis

end

/-! ### What the designs have in common -/

/-- The keys in partition `s` and their sizes, in the order of their last use. -/
def Table.contents (t : Table) (s : ℕ) : List (ℕ × ℕ) :=
  ((t.part s).lru.map (view t.mem)).map fun e => (e.key, e.size)

/-- A run of `doqueries` over the batches `bs` up to the last value: the design, the values and what the partitions then
hold. -/
inductive DesignRun (maxSize nservers : ℕ) (bs : List (List Msg)) : ℕ → List ℕ → (ℕ → List (ℕ × ℕ)) → Prop
  | passing {design c : ℕ} {st : Sys} {log : List Event} (hdesign : design = 1 ∨ design = 2)
      (h : Sys.Doqueries (createHashTable maxSize nservers .lru) design c bs st log)
      (halloc : ∀ e ∈ log, e.Allocated) (hlen : log.length + 2 < 2 ^ 63)
      (hall : (obtained c log).length = bs.flatten.length) :
      DesignRun maxSize nservers bs design (obtained c log) st.table.contents
  | locking {t : ℕ} {st : Locking} {log : List LockingEvent} {pts : List LockingPoint}
      (h : Locking.Doqueries maxSize nservers t bs st log pts) (hlen : log.length + 1 < 2 ^ 63)
      (hall : (returnedBy t log).length = bs.flatten.length) :
      DesignRun maxSize nservers bs 3 (returnedBy t log) st.table.contents

/-- **Each design** answers as the caches of numbers of the partitions. -/
theorem DesignRun.answers {maxSize nservers design : ℕ} {bs : List (List Msg)} {vals : List ℕ}
    {contents : ℕ → List (ℕ × ℕ)} (h : DesignRun maxSize nservers bs design vals contents) (hn : 0 < nservers)
    (hmax : maxSize / nservers < 2 ^ 63) (hbs : ∀ m ∈ bs.flatten, m.Ok) (hne : ∀ b ∈ bs, b ≠ []) :
    Answers (maxSize / nservers) nservers bs vals ∧ ∀ s < nservers, contents s
      = (expected (maxSize / nservers) nservers s bs).cache.entries.map fun e => (e.key, e.size) := by
  cases h with
  | passing hdesign h halloc hlen hall =>
      exact ⟨⟨hall, fun s hs => h.agrees hmax hbs halloc hlen hs⟩,
        fun s hs => h.entries hmax hbs hne halloc hlen hs hall⟩
  | locking h hlen hall =>
      obtain ⟨hserved, -⟩ := h.working hn hmax
      obtain ⟨y, hy, hrest, hlater, hlock⟩ := h.done hn hmax hne hall
      exact ⟨⟨hall, fun s hs => locking_agrees hn hmax hserved hlen hy hs⟩,
        fun s hs => locking_entries hn hmax hserved hlen hy hrest hlater hs (hlock s)⟩

/-- **The three designs agree.**  Programs that call `doqueries` with the same batches, each with one of the designs, find
something at the same requests; what a lookup finds is the value of the last insert of its key before it; and when they
have all values, the partitions hold the same keys with the same sizes in the same order of use. -/
theorem doqueries_agree {maxSize nservers : ℕ} (hn : 0 < nservers) (hmax : maxSize / nservers < 2 ^ 63)
    {bs : List (List Msg)} (hbs : ∀ m ∈ bs.flatten, m.Ok) (hne : ∀ b ∈ bs, b ≠ []) {design design' : ℕ}
    {vals vals' : List ℕ} {contents contents' : ℕ → List (ℕ × ℕ)}
    (h : DesignRun maxSize nservers bs design vals contents)
    (h' : DesignRun maxSize nservers bs design' vals' contents') :
    vals.map (fun v => (hitOf v).isSome) = vals'.map (fun v => (hitOf v).isSome) ∧
      (∀ before key v after e, bs.flatten.zip vals = before ++ (.lookup key, v) :: after → hitOf v = some e →
        ∃ l size w l', before = l ++ (.insert key size, w) :: l' ∧ hitOf w = some e ∧
          ∀ a ∈ l', ∀ size, a.1 ≠ .insert key size) ∧
      ∀ s < nservers, contents s = contents' s := by
  obtain ⟨hanswers, hcontents⟩ := h.answers hn hmax hbs hne
  obtain ⟨hanswers', hcontents'⟩ := h'.answers hn hmax hbs hne
  have hreq : ∀ m ∈ bs.flatten, m.isRequest = true := fun m hm => Msg.isRequest_of_ok (hbs m hm)
  exact ⟨hanswers.found_same hanswers' hn,
    fun before key v after e hsplit hv => hanswers.latest hn hreq hsplit hv,
    fun s hs => (hcontents s hs).trans (hcontents' s hs).symm⟩

theorem doqueries_agree_twice : ∃ contents contents',
    DesignRun 128 1 batchesMade 1 [128, 0, 128, 320] contents ∧
    DesignRun 128 1 batchesMade 3 [128, 0, 128, 320] contents' ∧ contents 0 = contents' 0 := by
  have hval : (Runs.run Sys.step (fun st log a => a.Doqueries 1 0 batchesMade st log) doqueriesRun
      (Sys.init (createHashTable 128 1 .lru)) []).map
        (fun r => decide (obtained 0 r.2 = [128, 0, 128, 320] ∧ r.2.length = 20 ∧ ∀ e ∈ r.2, e.Allocated))
      = some true := by
    decide +kernel
  obtain ⟨⟨st, log⟩, hrun, heq⟩ := Option.map_eq_some_iff.mp hval
  obtain ⟨hobtained, hlen, halloc⟩ := of_decide_eq_true heq
  have hval' : (Runs.runNoted Locking.step (fun _ log a => a.Doqueries 0 batchesMade log ∧ a.Served) Locking.points
      lockedBatchesRun (.init (createHashTable 128 1 .lru)) [] []).map
        (fun r => decide (returnedBy 0 r.2.1 = [128, 0, 128, 320] ∧ r.2.1.length = 8)) = some true := by
    decide +kernel
  obtain ⟨⟨st', log', pts⟩, hrun', heq'⟩ := Option.map_eq_some_iff.mp hval'
  obtain ⟨hreturned, hlen'⟩ := of_decide_eq_true heq'
  simp only at hobtained hlen halloc hreturned hlen'
  have hpassing : DesignRun 128 1 batchesMade 1 (obtained 0 log) st.table.contents :=
    .passing (Or.inl rfl) (Runs.Reach.start.run hrun) halloc (by rw [hlen]; decide) (by rw [hobtained]; rfl)
  have hlocking : DesignRun 128 1 batchesMade 3 (returnedBy 0 log') st'.table.contents :=
    .locking (Runs.Noted.start.run hrun') (by rw [hlen']; decide) (by rw [hreturned]; rfl)
  obtain ⟨-, -, hsame⟩ := doqueries_agree Nat.one_pos (by decide) (by decide) (by decide) hpassing hlocking
  exact ⟨_, _, hobtained ▸ hpassing, hreturned ▸ hlocking, hsame 0 Nat.one_pos⟩

end SmpHashTable
