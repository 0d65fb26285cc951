import SmpHashTable.AtomicRuns
import SmpHashTable.CacheRefinement

/-!
# The locking table is linearizable

Calls of many threads on the locking table take effect one at a time, each at one step between its
acquire and its release, and there as on one cache per partition (`FillingCache`): a lookup when it tests
the mask, an insert when it links its element, `atomic_mark_ready` when it clears the mask.  In the middle
of an insert the partition is neither the cache before nor the cache after; what is left to drop is
what the eviction loop will still drop.
-/

namespace SmpHashTable

/-! ### Where calls take effect -/

inductive LockingPoint
  /-- Thread `t` looks a key up in partition `s`. -/
  | lookup (t s key : ℕ) (hit : Option ℕ)
  /-- An insert into partition `s` removes `e`. -/
  | drop (s e : ℕ)
  /-- The insert of thread `t` into partition `s` ends with the element `e`. -/
  | insert (t s key size e : ℕ)
  /-- An element of partition `s` is marked ready. -/
  | publish (s e : ℕ)
  deriving DecidableEq

namespace Locking

/-- What takes effect at a step. -/
def points (st : Locking) : LockingAct → List LockingPoint
  | .markReady _ e => [.publish (hashGetServer st.table.nservers (st.table.mem.elem e).key) e]
  | .next t alloc tscs =>
      match st.pc t with
      | .lookup s key =>
          [.lookup t s key
            ((hashLookup (st.table.part s) st.table.mem key).1.filter (isValueReady st.table.mem))]
      | .insert c => (hashLookup (st.table.part c.s) st.table.mem c.key).1.toList.map (.drop c.s)
      | .evict c =>
          match if (st.table.part c.s).size ≤ (st.table.part c.s).maxSize then alloc else none with
          | some e => [.insert t c.s c.key (elemSize c.size) e]
          | none =>
              match victim (st.table.part c.s) tscs with
              | .ok (l, _) => [.drop c.s l]
              | .error _ => []
      | _ => []
  | _ => []

end Locking

/-- The operations of partition `s` with what they showed, and what the insert under way has dropped. -/
def LockingPoint.follow (s : ℕ) (h : List (FillingCache.Op ℕ ℕ × FillingCache.Out ℕ) × List ℕ) :
    LockingPoint → List (FillingCache.Op ℕ ℕ × FillingCache.Out ℕ) × List ℕ
  | .lookup _ s' key hit => if s' = s then (h.1 ++ [(.lookup key, ⟨hit, []⟩)], h.2) else h
  | .drop s' e => if s' = s then (h.1, h.2 ++ [e]) else h
  | .insert _ s' key size e => if s' = s then (h.1 ++ [(.insert key size e, ⟨none, h.2⟩)], []) else h
  | .publish s' e => if s' = s then (h.1 ++ [(.publish e, ⟨none, []⟩)], h.2) else h

/-- What took effect in partition `s`. -/
def effects (s : ℕ) (pts : List LockingPoint) : List (FillingCache.Op ℕ ℕ × FillingCache.Out ℕ) × List ℕ :=
  pts.foldl (LockingPoint.follow s) ([], [])

/-- The results of the calls of thread `t` that have taken effect. -/
def results (t : ℕ) (pts : List LockingPoint) : List ℕ := pts.filterMap fun
  | .lookup t' _ _ hit => if t' = t then some (hit.elim 0 valuePtr) else none
  | .insert t' _ _ _ e => if t' = t then some (valuePtr e) else none
  | _ => none

/-- What the calls of thread `t` have returned. -/
def returnedBy (t : ℕ) (log : List LockingEvent) : List ℕ := log.filterMap fun
  | .returned t' v => if t' = t then some v else none
  | _ => none

/-- The result a call has to return yet. -/
def LockingPc.owed : LockingPc → List ℕ
  | take _ e => [valuePtr e]
  | leave _ value => [value]
  | _ => []

/-- What the environment and the callers of the locking table provide: inserts with sizes a caller can
mean, and `memalign` does not fail. -/
def LockingAct.Served : LockingAct → Prop
  | .insert _ _ size => 0 ≤ size ∧ size < 2 ^ 31
  | .next _ alloc _ => alloc.isSome = true
  | _ => True

/-- The partition in which it takes effect. -/
def LockingPoint.part : LockingPoint → ℕ
  | .lookup _ s _ _ | .drop s _ | .insert _ s _ _ _ | .publish s _ => s

theorem effects_append (s : ℕ) (pts pts' : List LockingPoint) :
    effects s (pts ++ pts') = pts'.foldl (LockingPoint.follow s) (effects s pts) := List.foldl_append ..

theorem results_append (t : ℕ) (pts pts' : List LockingPoint) :
    results t (pts ++ pts') = results t pts ++ results t pts' := List.filterMap_append ..

theorem returnedBy_append (t : ℕ) (log log' : List LockingEvent) :
    returnedBy t (log ++ log') = returnedBy t log ++ returnedBy t log' := List.filterMap_append ..

/-! ### In the middle of an insert -/

/-- What is left to drop for `call` is what the cache with the entries `es` still has to drop. -/
structure Making (limit : ℕ) (call : InsertCall) (extra : ℕ) (p : Partition) (m : Mem) (es : List LruEntry)
    (drops : List ℕ) : Prop where
  rep : Rep p m extra
  lru : p.evictalgo = .lru
  fits : LruCache.total (p.lru.map (view m)) ≤ limit
  kept : ∀ v, (LruCache.insert limit ⟨call.key, elemSize call.size, v⟩ es).1
    = ⟨call.key, elemSize call.size, v⟩ ::
        (LruCache.trim limit (elemSize call.size) (p.lru.map (view m)).reverse).1.reverse
  dropped : ∃ gone : List LruEntry, drops = gone.map LruCache.Entry.val ∧
    ∀ v, (LruCache.insert limit ⟨call.key, elemSize call.size, v⟩ es).2
      = gone ++ (LruCache.trim limit (elemSize call.size) (p.lru.map (view m)).reverse).2

/-- A new count leaves the element's header and block otherwise alone. -/
theorem Mem.recount_frame {m : Mem} {e : ℕ} (hlive : m.Live e) (rc : ℕ) :
    ReleaseFrame m (m.setElem e { m.elem e with refCount := rc }) e where
  live_before := hlive
  elem_of_ne _ ha := Mem.setElem_of_ne m _ ha
  key_eq := (m.recount e rc e).1
  size_eq := (m.recount e rc e).2
  blocks_of_ne _ _ := Iff.rfl
  blocks_sub _ hb := hb

section

variable {limit extra : ℕ} {call : InsertCall} {p : Partition} {m m' : Mem} {es : List LruEntry}
  {drops : List ℕ}

theorem view_congr {l : List ℕ} (hkeep : ∀ a ∈ l, (m'.elem a).key = (m.elem a).key ∧
    (m'.elem a).size = (m.elem a).size) : l.map (view m') = l.map (view m) := by
  refine List.map_congr_left ?_
  intro a ha
  rw [view, view, (hkeep a ha).1, (hkeep a ha).2]

theorem Making.congr_mem (h : Making limit call extra p m es drops)
    (hkeep : ∀ a ∈ p.elems, m'.Live a ∧ (m'.elem a).key = (m.elem a).key ∧
      (m'.elem a).size = (m.elem a).size) : Making limit call extra p m' es drops := by
  have hview : p.lru.map (view m') = p.lru.map (view m) :=
    view_congr fun a ha => (hkeep a ((h.rep.lru_mem h.lru a).mp ha)).2
  refine ⟨h.rep.congr_mem (fun a ha => (hkeep a ha).2.1) (fun a ha => (hkeep a ha).2.2)
    fun a ha => (hkeep a ha).1, h.lru, ?_, ?_, ?_⟩
  · rw [hview]
    exact h.fits
  · rw [hview]
    exact h.kept
  · rw [hview]
    exact h.dropped

/-- **An insert begins**: the entry of the key goes, if there is one. -/
theorem LruRep.making (h : LruRep p m es) (hmax : p.maxSize = limit) {p' : Partition} (hrep : Rep p' m' 0)
    (hlru : p'.evictalgo = .lru) (hentries : p'.lru.map (view m') = es.filter fun x => x.key ≠ call.key)
    (hdrops : drops = (es.filter fun x => x.key = call.key).map LruCache.Entry.val) :
    Making limit call 0 p' m' es drops := by
  have htotal : LruCache.total es = p.size := by
    rw [size_eq_total h.rep h.lru, h.entries, Nat.add_zero]
  have hfilter : LruCache.total (es.filter fun x => x.key ≠ call.key) ≤ LruCache.total es :=
    (List.filter_sublist.map LruCache.Entry.size).sum_le_sum (fun _ _ => Nat.zero_le _)
  refine ⟨hrep, hlru, ?_, ?_, _, hdrops, ?_⟩
  · have hfits := h.fits
    rw [hentries]
    exact hfilter.trans (by omega)
  · intro v
    rw [hentries]
    rfl
  · intro v
    rw [hentries]
    rfl

/-- The size of the new element is charged. -/
theorem Making.charge (h : Making limit call 0 p m es drops) (hlimit : limit < 2 ^ 63)
    (hsize : elemSize call.size < 2 ^ 32) :
    Making limit call (elemSize call.size) { p with size := add64 p.size (elemSize call.size) } m es drops := by
  have htotal := size_eq_total h.rep h.lru
  have hfits := h.fits
  have hrep := h.rep.charge (n := elemSize call.size) (by omega)
  rw [Nat.zero_add] at hrep
  exact ⟨hrep, h.lru, h.fits, h.kept, h.dropped⟩

/-- The last element of the recency list is what `hash_remove` takes off it. -/
theorem hashRemove_last (hnd : p.lru.Nodup) (hl : p.evictalgo = .lru) {l : ℕ}
    (hlast : p.lru.getLast? = some l) (m : Mem) : p.lru = (hashRemove p m l).lru ++ [l] := by
  obtain ⟨init, hinit⟩ := List.getLast?_eq_some_iff.mp hlast
  have hnot : l ∉ init := by
    rw [hinit] at hnd
    exact fun hmem => List.disjoint_of_nodup_append hnd hmem (List.mem_singleton_self l)
  simp only [hashRemove, hl, if_true]
  rw [hinit, List.erase_append_right _ hnot, List.erase_cons_head, List.append_nil]

/-- **A round of eviction** drops what the cache drops next. -/
theorem Making.evict (h : Making limit call (elemSize call.size) p m es drops) (hmax : p.maxSize = limit)
    (hgt : ¬ p.size ≤ p.maxSize) {l : ℕ} (hlast : p.lru.getLast? = some l) (hframe : ReleaseFrame m m' l) :
    Making limit call (elemSize call.size) (hashRemove p m l) m' es (drops ++ [l]) := by
  have hin : l ∈ p.elems := (h.rep.lru_mem h.lru l).mp (List.mem_of_getLast? hlast)
  have hrep := hashRemove_release_rep h.rep hin hframe
  have hsplit := hashRemove_last (h.rep.lru_nodup h.lru) h.lru hlast m
  have hview : (hashRemove p m l).lru.map (view m') = (hashRemove p m l).lru.map (view m) :=
    view_congr fun a _ => ⟨hframe.key a, hframe.size a⟩
  have hrev : (p.lru.map (view m)).reverse = view m l :: ((hashRemove p m l).lru.map (view m)).reverse := by
    conv_lhs => rw [hsplit]
    simp
  have htotal := size_eq_total h.rep h.lru
  have hfits := h.fits
  have hbig : ¬ LruCache.total (view m l :: ((hashRemove p m l).lru.map (view m)).reverse)
      + elemSize call.size ≤ limit := by
    rw [← hrev, LruCache.total_reverse]
    omega
  have htrim := LruCache.trim_drop hbig
  obtain ⟨gone, hgone, hdropped⟩ := h.dropped
  refine ⟨hrep, h.lru, ?_, ?_, gone ++ [view m l], ?_, ?_⟩
  · rw [hview]
    have hle : LruCache.total ((hashRemove p m l).lru.map (view m)) ≤ LruCache.total (p.lru.map (view m)) := by
      rw [hsplit, List.map_append, LruCache.total, LruCache.total, List.map_append, List.sum_append]
      exact Nat.le_add_right ..
    exact hle.trans hfits
  · intro v
    rw [hview, h.kept v, hrev, htrim]
  · rw [hgone, List.map_append]
    rfl
  · intro v
    rw [hview, hdropped v, hrev, htrim, List.append_assoc]
    rfl

/-- **An insert ends**: nothing is left to drop when the new element fits. -/
theorem Making.link (h : Making limit call (elemSize call.size) p m es drops) (hmax : p.maxSize = limit)
    (hle : p.size ≤ p.maxSize) {e : ℕ} (hdead : ¬ m.Live e)
    (habsent : ∀ a ∈ p.elems, (m.elem a).key ≠ call.key) (rc : ℕ) :
    (LruCache.insert limit ⟨call.key, elemSize call.size, e⟩ es).2.map LruCache.Entry.val = drops ∧
      LruRep (linkElem p { m with blocks := (e, CACHELINE) :: m.blocks } e call.key (elemSize call.size)).1
        (Mem.setElem (linkElem p { m with blocks := (e, CACHELINE) :: m.blocks } e call.key
          (elemSize call.size)).2 e
          { (linkElem p { m with blocks := (e, CACHELINE) :: m.blocks } e call.key
            (elemSize call.size)).2.elem e with refCount := rc })
        (LruCache.insert limit ⟨call.key, elemSize call.size, e⟩ es).1 := by
  have htotal := size_eq_total h.rep h.lru
  have hroom : LruCache.total (p.lru.map (view m)).reverse + elemSize call.size ≤ limit := by
    rw [LruCache.total_reverse]
    omega
  have htrim := LruCache.trim_fits hroom
  obtain ⟨gone, hgone, hdropped⟩ := h.dropped
  have hshape := linkElem_shape CACHELINE h.rep.toShape hdead habsent
  set m₀ : Mem := { m with blocks := (e, CACHELINE) :: m.blocks } with hm₀
  set m₁ := (linkElem p m₀ e call.key (elemSize call.size)).2 with hm₁
  have hself : m₁.elem e = { m.elem e with key := call.key, size := elemSize call.size } := by
    rw [hm₁]
    exact Mem.setElem_self ..
  have helem : ∀ a ∈ p.elems, m₁.elem a = m.elem a := by
    intro a ha
    rw [hm₁]
    exact Mem.setElem_of_ne m₀ _ fun heq => hdead (heq ▸ h.rep.live a ha)
  -- the charge pays for the new element, so the counter has not wrapped
  have hrep : Rep (linkElem p m₀ e call.key (elemSize call.size)).1 m₁ 0 := by
    refine hshape.rep ?_
    have hperm := Lists.cat_concat_perm (Nat.mod_lt call.key h.rep.nhash_pos) p.table e
    have hsum := (hperm.map fun a => (m₁.elem a).size).sum_eq
    rw [List.map_cons, List.sum_cons, hself] at hsum
    have hsame : ((Lists.cat p.nhash p.table).map fun a => (m₁.elem a).size)
        = p.elems.map fun a => (m.elem a).size :=
      List.map_congr_left fun a ha => congrArg Elem.size (helem a ha)
    rw [hsame] at hsum
    have hsize := h.rep.size_eq
    have hlt := h.rep.size_lt
    show ((Lists.cat p.nhash _).map fun a => (m₁.elem a).size).sum + 0 < 2 ^ 64
    have hlen : ((Lists.cat p.nhash (Function.update p.table (call.key % p.nhash)
        (p.table (call.key % p.nhash) ++ [e]))).map fun a => (m₁.elem a).size).sum < 2 ^ 64 := by
      rw [hsum]
      show elemSize call.size + (p.elems.map fun a => (m.elem a).size).sum < 2 ^ 64
      omega
    exact hlen
  have hkept : LruRep (linkElem p m₀ e call.key (elemSize call.size)).1 m₁
      (LruCache.insert limit ⟨call.key, elemSize call.size, e⟩ es).1 := by
    refine ⟨hrep, hle, h.lru, ?_⟩
    rw [h.kept e, htrim, List.reverse_reverse]
    show (if p.evictalgo = .lru then e :: p.lru else p.lru).map (view m₁) = _
    rw [if_pos h.lru, List.map_cons, view, hself]
    refine congrArg _ (view_congr fun a ha => ?_)
    rw [helem a ((h.rep.lru_mem h.lru a).mp ha)]
    exact ⟨rfl, rfl⟩
  refine ⟨?_, hkept.congr_mem fun a ha => ⟨hkept.rep.live a ha, m₁.recount e rc a⟩⟩
  rw [hdropped e, htrim, List.append_nil, hgone]

end

/-! ### What a step leaves alone -/

namespace Locking

variable {st st' : Locking} {log evs : List LockingEvent} {t s e : ℕ}

/-- A step changes no key and no size of a live element, and no partition but the one its thread has
locked. -/
structure Local (st st' : Locking) (t : ℕ) : Prop where
  keeps : ∀ a, st.table.mem.Live a → (st'.table.mem.elem a).key = (st.table.mem.elem a).key ∧
    (st'.table.mem.elem a).size = (st.table.mem.elem a).size
  part : ∀ s, (st.pc t).holds ≠ some s → st'.table.part s = st.table.part s

theorem Local.same (h : st'.table = st.table) : Local st st' t :=
  ⟨fun a _ => by rw [h]; exact ⟨rfl, rfl⟩, fun s _ => by rw [h]⟩

/-- The partition that the thread has locked is replaced. -/
theorem Local.setPart (hpc : (st.pc t).holds = some s) (p : Partition) (pc : LockingPc) :
    Local st ((st.setPart s p).setPc t pc) t := by
  refine ⟨fun a _ => ⟨rfl, rfl⟩, ?_⟩
  intro s' hs'
  rw [hpc] at hs'
  have hne : s' ≠ s := fun heq => hs' (by rw [heq])
  exact Function.update_of_ne hne ..

theorem update_local {f : ℕ → ℕ} {ret : ReleaseRet} (hstep : st.update t e f ret = .ok st') :
    Local st st' t := by
  obtain ⟨-, rfl⟩ := update_ok hstep
  exact ⟨fun a _ => st.table.mem.recount e _ a, fun _ _ => rfl⟩

theorem remove_local {p : Partition} {ret : ReleaseRet} (hpc : (st.pc t).holds = some s)
    (hstep : st.remove t s p e ret = .ok st') : Local st st' t := by
  obtain ⟨-, rfl⟩ := update_ok hstep
  refine ⟨fun a _ => st.table.mem.recount e _ a, ?_⟩
  intro s' hs'
  rw [hpc] at hs'
  have hne : s' ≠ s := fun heq => hs' (by rw [heq])
  exact Function.update_of_ne hne ..

theorem evict_local {c : InsertCall} {tscs : List ℕ} (hpc : (st.pc t).holds = some c.s)
    (hstep : st.evict t c tscs = .ok st') : Local st st' t := by
  unfold Locking.evict at hstep
  split at hstep
  · obtain ⟨⟨l, rest⟩, -, hrem⟩ := Outcome.bind_ok.mp hstep
    exact remove_local hpc hrem
  · cases hstep

theorem acquire_local {pc : LockingPc} (hstep : st.acquire t s pc = .ok (st', evs)) : Local st st' t := by
  unfold Locking.acquire at hstep
  split at hstep
  · cases hstep
    exact .same rfl
  · cases hstep

theorem next_local {alloc : Option ℕ} {tscs : List ℕ} (hstep : st.next t alloc tscs = .ok (st', evs)) :
    Local st st' t := by
  cases hpc : st.pc t with
  | idle =>
      simp only [Locking.next, hpc] at hstep
      cases hstep
  | lookup s key =>
      have hholds : (st.pc t).holds = some s := by rw [hpc]; rfl
      simp only [Locking.next, hpc] at hstep
      split at hstep
      · split at hstep
        · cases hstep
          exact .setPart hholds _ _
        · cases hstep
      · cases hstep
        exact .setPart hholds _ _
  | take s e =>
      simp only [Locking.next, hpc] at hstep
      split at hstep
      · cases hstep
        exact ⟨fun a _ => st.table.mem.recount e _ a, fun _ _ => rfl⟩
      · cases hstep
  | insert c =>
      have hholds : (st.pc t).holds = some c.s := by rw [hpc]; rfl
      simp only [Locking.next, hpc] at hstep
      split at hstep
      · obtain ⟨st₁, hrem, heq⟩ := Outcome.map_ok.mp hstep
        cases heq
        exact remove_local hholds hrem
      · cases hstep
        exact .setPart hholds _ _
  | charge c =>
      simp only [Locking.next, hpc] at hstep
      cases hstep
      exact .setPart (by rw [hpc]; rfl) _ _
  | evict c =>
      have hholds : (st.pc t).holds = some c.s := by rw [hpc]; rfl
      simp only [Locking.next, hpc] at hstep
      split at hstep
      · obtain ⟨⟨got, m⟩, halloc, hstep⟩ := Outcome.bind_ok.mp hstep
        cases got with
        | some e =>
            obtain ⟨hfresh, rfl⟩ := memalign_some halloc
            cases hstep
            refine ⟨fun a ha => ?_, fun s' hs' => ?_⟩
            · have hae : a ≠ e := fun heq => hfresh.not_live (heq ▸ ha)
              show ((Mem.setElem (Mem.setElem _ e _) e _).elem a).key = _ ∧
                ((Mem.setElem (Mem.setElem _ e _) e _).elem a).size = _
              rw [Mem.setElem_of_ne _ _ hae, Mem.setElem_of_ne _ _ hae]
              exact ⟨rfl, rfl⟩
            · rw [hholds] at hs'
              have hne : s' ≠ c.s := fun heq => hs' (by rw [heq])
              exact Function.update_of_ne hne ..
        | none =>
            obtain ⟨st₁, hevict, heq⟩ := Outcome.map_ok.mp hstep
            cases heq
            exact evict_local hholds hevict
      · obtain ⟨st₁, hevict, heq⟩ := Outcome.map_ok.mp hstep
        cases heq
        exact evict_local hholds hevict
  | free e ret =>
      simp only [Locking.next, hpc] at hstep
      obtain ⟨m, hfree, hstep⟩ := Outcome.bind_ok.mp hstep
      cases hstep
      refine ⟨fun a _ => ?_, fun _ _ => rfl⟩
      unfold SmpHashTable.free at hfree
      split at hfree
      · cases hfree
        exact ⟨rfl, rfl⟩
      · cases hfree
  | leave s value =>
      simp only [Locking.next, hpc] at hstep
      cases hstep
      exact .same rfl

theorem step_local {a : LockingAct} (hstep : st.step a = .ok (st', evs)) : Local st st' a.thread := by
  cases a with
  | lookup t key => exact acquire_local hstep
  | insert t key size => exact acquire_local hstep
  | release t e =>
      simp only [Locking.step] at hstep
      split at hstep
      · obtain ⟨st₁, hup, heq⟩ := Outcome.map_ok.mp hstep
        cases heq
        exact update_local hup
      · cases hstep
  | markReady t e =>
      simp only [Locking.step] at hstep
      split at hstep
      · obtain ⟨st₁, hup, heq⟩ := Outcome.map_ok.mp hstep
        cases heq
        exact update_local hup
      · cases hstep
  | next t alloc tscs => exact next_local hstep

/-- The insert under way in partition `s`, once the old element of its key is gone. -/
def making (st : Locking) (s : ℕ) : Option InsertCall := (st.lock s).bind fun t => (st.pc t).making

theorem body_eq (st : Locking) {pc : LockingPc} (hlock : st.lock s = some t) (hpc : st.pc t = pc) :
    st.making s = pc.making ∧ st.charged s = pc.charged := by
  rw [making, charged, hlock]
  exact ⟨by rw [Option.bind_some, hpc], by rw [chargedBy, hpc]⟩

/-- Who holds the lock of a partition, and what it does there, is not changed by other threads. -/
theorem Bodies.lock_of_ne (h : Bodies st) (h' : Bodies st') {pc : LockingPc}
    (hpc : st'.pc = Function.update st.pc t pc) (hbefore : (st.pc t).holds ≠ some s)
    (hafter : pc.holds ≠ some s) :
    st'.lock s = st.lock s ∧ st'.making s = st.making s ∧ st'.charged s = st.charged s := by
  have hthis : st'.pc t = pc := by rw [hpc, Function.update_self]
  have hrest : ∀ t' ≠ t, st'.pc t' = st.pc t' := fun t' hne => by rw [hpc, Function.update_of_ne hne]
  have hlock : st'.lock s = st.lock s := by
    refine Option.ext fun t' => ?_
    rw [← h'.holding t' s, ← h.holding t' s]
    by_cases hne : t' = t
    · subst hne
      rw [hthis]
      exact ⟨fun heq => absurd heq hafter, fun heq => absurd heq hbefore⟩
    · rw [hrest t' hne]
  refine ⟨hlock, ?_⟩
  cases hold : st.lock s with
  | none =>
      rw [making, making, charged, charged, hlock, hold]
      exact ⟨rfl, rfl⟩
  | some t' =>
      have hne : t' ≠ t := by
        rintro rfl
        exact hbefore ((h.holding t' s).mpr hold)
      obtain ⟨h₁, h₂⟩ := body_eq _ hold rfl
      obtain ⟨h₁', h₂'⟩ := body_eq _ (hlock.trans hold) rfl
      rw [h₁, h₂, h₁', h₂', hrest t' hne]
      exact ⟨rfl, rfl⟩

/-! ### The abstraction relation -/

/-- Partition `s` is the cache `c`, or it is on its way to the next one; `drops` are the elements that the
insert under way has dropped. -/
structure Serving (limit : ℕ) (st : Locking) (log : List LockingEvent) (s : ℕ)
    (c : FillingCache.Cache ℕ ℕ) (drops : List ℕ) : Prop where
  share : (st.table.part s).maxSize = limit
  filling : ∀ e, e ∈ c.filling ↔ 0 < SmpHashTable.filling log e ∧
    hashGetServer st.table.nservers (st.table.mem.elem e).key = s
  whole : st.making s = none → LruRep (st.table.part s) st.table.mem c.entries ∧ drops = []
  part : ∀ call, st.making s = some call →
    Making limit call (st.charged s) (st.table.part s) st.table.mem c.entries drops

/-- Steps that do not concern what the cache is about. -/
theorem Serving.keep {limit : ℕ} {c : FillingCache.Cache ℕ ℕ} {drops : List ℕ} {log' : List LockingEvent}
    (h : Serving limit st log s c drops) (hpart : st'.table.part s = st.table.part s)
    (hmaking : st'.making s = st.making s) (hcharged : st'.charged s = st.charged s)
    (hkeep : ∀ a ∈ (st.table.part s).elems, st'.table.mem.Live a ∧
      (st'.table.mem.elem a).key = (st.table.mem.elem a).key ∧
      (st'.table.mem.elem a).size = (st.table.mem.elem a).size)
    (hfill : ∀ e, (0 < SmpHashTable.filling log' e ∧
        hashGetServer st'.table.nservers (st'.table.mem.elem e).key = s) ↔
      0 < SmpHashTable.filling log e ∧ hashGetServer st.table.nservers (st.table.mem.elem e).key = s) :
    Serving limit st' log' s c drops := by
  refine ⟨?_, ?_, ?_, ?_⟩
  · rw [hpart]
    exact h.share
  · intro e
    rw [h.filling, hfill]
  · intro hnone
    rw [hmaking] at hnone
    rw [hpart]
    exact ⟨(h.whole hnone).1.congr_mem hkeep, (h.whole hnone).2⟩
  · intro call hcall
    rw [hmaking] at hcall
    rw [hpart, hcharged]
    exact (h.part call hcall).congr_mem hkeep

/-- An element that is being filled is live. -/
theorem Inv.live_of_filling (h : Inv st log) (he : 0 < SmpHashTable.filling log e) : st.table.mem.Live e :=
  (h.counts.account e).live_iff.mpr (Or.inr (Or.inl he))

/-- A step that leaves the partition and what its holder does there as they are. -/
theorem Serving.untouched {limit : ℕ} {c : FillingCache.Cache ℕ ℕ} {drops : List ℕ}
    (h : Serving limit st log s c drops) (hI : Inv st log) (hI' : Inv st' (log ++ evs))
    (hs : s < st.table.nservers) (hlocal : Local st st' t) (hn : st'.table.nservers = st.table.nservers)
    (hpart : st'.table.part s = st.table.part s)
    (hbody : st'.making s = st.making s ∧ st'.charged s = st.charged s)
    (hmark : ∀ e, SmpHashTable.filling (log ++ evs) e = SmpHashTable.filling log e ∨
      hashGetServer st.table.nservers (st'.table.mem.elem e).key ≠ s ∧
        (0 < SmpHashTable.filling log e →
          hashGetServer st.table.nservers (st.table.mem.elem e).key ≠ s)) :
    Serving limit st' (log ++ evs) s c drops := by
  have hlive' : ∀ a ∈ (st.table.part s).elems, st'.table.mem.Live a := by
    intro a ha
    refine (hI'.bodies.shape s ?_).live a ?_
    · rw [hn]
      exact hs
    · rw [hpart]
      exact ha
  refine h.keep hpart hbody.1 hbody.2 (fun a ha => ⟨hlive' a ha, hlocal.keeps a ?_⟩) ?_
  · exact (hI.bodies.shape s hs).live a ha
  · intro e
    rw [hn]
    rcases hmark e with hsame | ⟨hne', hne⟩
    · rw [hsame]
      constructor
      · rintro ⟨hpos, hhome⟩
        rw [(hlocal.keeps e (hI.live_of_filling hpos)).1] at hhome
        exact ⟨hpos, hhome⟩
      · rintro ⟨hpos, hhome⟩
        rw [(hlocal.keeps e (hI.live_of_filling hpos)).1]
        exact ⟨hpos, hhome⟩
    · exact ⟨fun hand => absurd hand.2 hne', fun hand => absurd hand.2 (hne hand.1)⟩

/-- A step of a thread that neither is in partition `s` nor gets there. -/
theorem Serving.elsewhere {limit : ℕ} {c : FillingCache.Cache ℕ ℕ} {drops : List ℕ}
    (h : Serving limit st log s c drops) (hI : Inv st log) (hI' : Inv st' (log ++ evs))
    (hs : s < st.table.nservers) (hlocal : Local st st' t) (hframe : Frame st st' t evs)
    (hbefore : (st.pc t).holds ≠ some s) (hafter : (st'.pc t).holds ≠ some s)
    (hmark : ∀ e, SmpHashTable.filling (log ++ evs) e = SmpHashTable.filling log e ∨
      hashGetServer st.table.nservers (st'.table.mem.elem e).key ≠ s ∧
        (0 < SmpHashTable.filling log e →
          hashGetServer st.table.nservers (st.table.mem.elem e).key ≠ s)) :
    Serving limit st' (log ++ evs) s c drops := by
  obtain ⟨pc, hpc⟩ := hframe.own
  have hthis : st'.pc t = pc := by rw [hpc, Function.update_self]
  rw [hthis] at hafter
  obtain ⟨-, hbody⟩ := hI.bodies.lock_of_ne hI'.bodies hpc hbefore hafter
  exact h.untouched hI hI' hs hlocal hframe.nservers (hlocal.part s hbefore) hbody hmark

/-! ### What the holder of a lock does -/

section

variable {limit : ℕ} {c : FillingCache.Cache ℕ ℕ} {drops : List ℕ} {call : InsertCall} {alloc : Option ℕ}
  {tscs : List ℕ}

/-- The mask of an element of the partition is clear if and only if it is not being filled. -/
theorem Serving.ready_iff (h : Serving limit st log s c drops) (hI : Inv st log) (hs : s < st.table.nservers)
    {e : ℕ} (he : e ∈ (st.table.part s).elems) (hrefs : st.refs log e < DATA_READY_MASK) :
    isValueReady st.table.mem e = true ↔ e ∉ c.filling := by
  have hacc := h.filling e
  have hle := (hI.counts.account e).filling_le
  have hmask := ((hI.counts.account e).mask_eq ((hI.bodies.shape s hs).live e he) hrefs).2
  rw [and_iff_left (hI.bodies.home s hs e he)] at hacc
  have hone : SmpHashTable.filling log e = 1 ↔ 0 < SmpHashTable.filling log e := by omega
  rw [hacc, ← hone, ← hmask, isValueReady, decide_eq_true_eq, not_not]

/-- **A lookup takes effect** where it finds its element and tests the mask. -/
theorem Serving.lookup (h : Serving limit st log s c drops) (hI : Inv st log) {key : ℕ}
    (hpc : st.pc t = .lookup s key) (hrefs : ∀ e, st.refs log e < DATA_READY_MASK)
    (hstep : st.next t alloc tscs = .ok (st', evs)) :
    evs = [] ∧ FillingCache.lookup key c = ((FillingCache.lookup key c).1,
        ⟨(hashLookup (st.table.part s) st.table.mem key).1.filter (isValueReady st.table.mem), []⟩) ∧
      Serving limit st' log s (FillingCache.lookup key c).1 drops := by
  have hholds : (st.pc t).holds = some s := by rw [hpc]; rfl
  have hs := hI.bodies.inside t s hholds
  have hlock := (hI.bodies.holding t s).mp hholds
  obtain ⟨hrep, hdrops⟩ := h.whole (body_eq st hlock hpc).1
  obtain ⟨hfound, hrep'⟩ := hashLookup_lruRep hrep key
  obtain ⟨-, -, -, hmax, -⟩ := hashLookup_table (st.table.part s) st.table.mem key
  have hserving : ∀ pc : LockingPc, pc.making = none → Serving limit
      ((st.setPart s (hashLookup (st.table.part s) st.table.mem key).2).setPc t pc) log s
      (FillingCache.lookup key c).1 drops := by
    intro pc hmaking
    have hpart : ((st.setPart s (hashLookup (st.table.part s) st.table.mem key).2).setPc t pc).table.part s
        = (hashLookup (st.table.part s) st.table.mem key).2 := Function.update_self ..
    have hbody := (body_eq ((st.setPart s (hashLookup (st.table.part s) st.table.mem key).2).setPc t pc)
      hlock (Function.update_self ..)).1
    refine ⟨by rw [hpart, hmax]; exact h.share, h.filling, fun _ => ?_, ?_⟩
    · rw [hpart]
      exact ⟨hrep', hdrops⟩
    · intro call hcall
      rw [hbody, hmaking] at hcall
      cases hcall
  have hhit : ((LruCache.lookup key c.entries).1.map LruCache.Entry.val).filter (· ∉ c.filling)
      = (hashLookup (st.table.part s) st.table.mem key).1.filter (isValueReady st.table.mem) := by
    rw [← hfound]
    cases hres : (hashLookup (st.table.part s) st.table.mem key).1 with
    | none => rfl
    | some e =>
        have hmem := ((hashLookup_eq_some hrep.rep.toShape key e).mp hres).1
        have hready := h.ready_iff hI hs hmem (hrefs e)
        rw [Option.map_some, Option.map_some]
        show Option.filter (· ∉ c.filling) (some e) = Option.filter (isValueReady st.table.mem) (some e)
        by_cases hin : e ∈ c.filling
        · have hnot : ¬ isValueReady st.table.mem e = true := fun hr => hready.mp hr hin
          rw [Option.filter_some, Option.filter_some, if_neg hnot, if_neg (by simpa using hin)]
        · rw [Option.filter_some, Option.filter_some, if_pos (hready.mpr hin), if_pos (by simpa using hin)]
  have hout : FillingCache.lookup key c = ((FillingCache.lookup key c).1,
      ⟨(hashLookup (st.table.part s) st.table.mem key).1.filter (isValueReady st.table.mem), []⟩) := by
    rw [← hhit]
    rfl
  simp only [Locking.next, hpc] at hstep
  split at hstep
  · split at hstep
    · cases hstep
      refine ⟨rfl, hout, hserving _ ?_⟩
      split <;> rfl
    · cases hstep
  · cases hstep
    exact ⟨rfl, hout, hserving _ rfl⟩

/-- What a partition and its cache are after a step of the holder within an insert. -/
theorem Serving.within (h : Serving limit st log s c drops) (t : ℕ) (call : InsertCall) (pc : LockingPc)
    {drops' : List ℕ} (hlock : st'.lock s = some t) (hpc : st'.pc t = pc)
    (hn : st'.table.nservers = st.table.nservers) (hshare : (st'.table.part s).maxSize = limit)
    (hkeys : ∀ e, (st'.table.mem.elem e).key = (st.table.mem.elem e).key) (hcall : pc.making = some call)
    (hmaking : Making limit call pc.charged (st'.table.part s) st'.table.mem c.entries drops') :
    Serving limit st' log s c drops' := by
  obtain ⟨hbody, hcharged⟩ := body_eq st' hlock hpc
  refine ⟨hshare, ?_, ?_, ?_⟩
  · intro e
    rw [hn, hkeys]
    exact h.filling e
  · intro hnone
    rw [hbody, hcall] at hnone
    cases hnone
  · intro call' hcall'
    rw [hbody, hcall] at hcall'
    cases hcall'
    rw [hcharged]
    exact hmaking

/-- The old element of the key goes, if there is one. -/
theorem Serving.begin (h : Serving limit st log call.s c drops) (hI : Inv st log)
    (hpc : st.pc t = .insert call) (hstep : st.next t alloc tscs = .ok (st', evs)) :
    evs = [] ∧ Serving limit st' log call.s c
      (drops ++ (hashLookup (st.table.part call.s) st.table.mem call.key).1.toList) := by
  have hholds : (st.pc t).holds = some call.s := by rw [hpc]; rfl
  have hlock := (hI.bodies.holding t call.s).mp hholds
  obtain ⟨hrep, rfl⟩ := h.whole (body_eq st hlock hpc).1
  obtain ⟨p₁, m₁, rs, hold, hd, hgone, hkept⟩ := dropOld_lru atomicRelease hrep call.key
  obtain ⟨-, -, -, hmax, halgo⟩ := hashLookup_table (st.table.part call.s) st.table.mem call.key
  have hrep₀ := hashLookup_rep hrep.rep call.key
  have hlru := halgo.trans hrep.lru
  have hshare := h.share
  simp only [Locking.next, hpc] at hstep
  split at hstep
  · next e hfound =>
    obtain ⟨st₁, hrem, heq⟩ := Outcome.map_ok.mp hstep
    cases heq
    rw [hfound] at hold
    obtain ⟨m', -, hret⟩ := Outcome.bind_ok.mp hold
    cases hret
    obtain ⟨hlive, rfl⟩ := update_ok hrem
    refine ⟨rfl, ?_⟩
    have hin : e ∈ (hashLookup (st.table.part call.s) st.table.mem call.key).2.elems := by
      rw [hashLookup_elems]
      exact ((hashLookup_eq_some hrep.rep.toShape call.key e).mp hfound).1
    have hframe := Mem.recount_frame (m := st.table.mem) hlive
      (sub64 (st.table.mem.elem e).refCount 1)
    have hpart : (st.setPart call.s (hashRemove (hashLookup (st.table.part call.s) st.table.mem call.key).2
        st.table.mem e)).table.part call.s
        = hashRemove (hashLookup (st.table.part call.s) st.table.mem call.key).2 st.table.mem e :=
      Function.update_self ..
    refine h.within t call _ hlock (Function.update_self ..) rfl ?_ hframe.key ?_ ?_
    · exact (congrArg Partition.maxSize hpart).trans (hmax.trans hshare)
    · split <;> rfl
    · have hcharged : ∀ w : ℕ, (if w = 0 then LockingPc.free e (.charge call)
          else ReleaseRet.next (.charge call)).charged = 0 := by
        intro w
        split <;> rfl
      rw [hcharged]
      show Making limit call 0 ((st.setPart call.s _).table.part call.s) _ _ _
      rw [hpart]
      refine hrep.making hshare (hashRemove_release_rep hrep₀ hin hframe) hlru ?_ ?_
      · rw [← hkept]
        exact view_congr fun a _ => ⟨hframe.key a, hframe.size a⟩
      · rw [← hgone, hfound]
        rfl
  · next hfound =>
    cases hstep
    refine ⟨rfl, ?_⟩
    rw [hfound] at hold
    cases hold
    have hpart : (st.setPart call.s (hashLookup (st.table.part call.s) st.table.mem call.key).2).table.part
        call.s = (hashLookup (st.table.part call.s) st.table.mem call.key).2 := Function.update_self ..
    refine h.within t call (.charge call) hlock (Function.update_self ..) rfl ?_
      (fun _ => rfl) rfl ?_
    · exact (congrArg Partition.maxSize hpart).trans (hmax.trans hshare)
    · show Making limit call 0 ((st.setPart call.s _).table.part call.s) _ _ _
      rw [hpart]
      refine hrep.making hshare hrep₀ hlru hkept ?_
      rw [← hgone, hfound]
      rfl

/-- The charge. -/
theorem Serving.charge (h : Serving limit st log call.s c drops) (hI : Inv st log)
    (hpc : st.pc t = .charge call) (hlimit : limit < 2 ^ 63) (hsize : elemSize call.size < 2 ^ 32) :
    Serving limit ((st.setPart call.s { st.table.part call.s with
      size := add64 (st.table.part call.s).size (elemSize call.size) }).setPc t (.evict call)) log call.s c
      drops := by
  have hholds : (st.pc t).holds = some call.s := by rw [hpc]; rfl
  have hlock := (hI.bodies.holding t call.s).mp hholds
  obtain ⟨hbody, hcharged⟩ := body_eq st hlock hpc
  have hmaking := h.part call hbody
  rw [hcharged] at hmaking
  have hpart : (st.setPart call.s { st.table.part call.s with
      size := add64 (st.table.part call.s).size (elemSize call.size) }).table.part call.s
      = { st.table.part call.s with size := add64 (st.table.part call.s).size (elemSize call.size) } :=
    Function.update_self ..
  refine h.within t call (.evict call) hlock (Function.update_self ..) rfl ?_
    (fun _ => rfl) rfl ?_
  · exact (congrArg Partition.maxSize hpart).trans h.share
  · show Making limit call (elemSize call.size) ((st.setPart call.s _).table.part call.s) _ _ _
    rw [hpart]
    exact hmaking.charge hlimit hsize

/-- A round of eviction. -/
theorem Serving.evict (h : Serving limit st log call.s c drops) (hI : Inv st log)
    (hpc : st.pc t = .evict call) (hgt : ¬ (st.table.part call.s).size ≤ (st.table.part call.s).maxSize)
    (hstep : st.evict t call tscs = .ok st') :
    ∃ l rest, victim (st.table.part call.s) tscs = .ok (l, rest) ∧
      Serving limit st' log call.s c (drops ++ [l]) := by
  have hholds : (st.pc t).holds = some call.s := by rw [hpc]; rfl
  have hlock := (hI.bodies.holding t call.s).mp hholds
  obtain ⟨hbody, hcharged⟩ := body_eq st hlock hpc
  have hmaking := h.part call hbody
  rw [hcharged] at hmaking
  unfold Locking.evict at hstep
  split at hstep
  · obtain ⟨⟨l, rest⟩, hvictim, hrem⟩ := Outcome.bind_ok.mp hstep
    obtain ⟨hlive, rfl⟩ := update_ok hrem
    have hlast : (st.table.part call.s).lru.getLast? = some l := by
      rw [victim, hmaking.lru] at hvictim
      cases hres : (st.table.part call.s).lru.getLast? with
      | none =>
          simp only [hres] at hvictim
          cases hvictim
      | some l' =>
          simp only [hres] at hvictim
          cases hvictim
          rfl
    have hframe := Mem.recount_frame (m := st.table.mem) hlive (sub64 (st.table.mem.elem l).refCount 1)
    have hpart : (st.setPart call.s (hashRemove (st.table.part call.s) st.table.mem l)).table.part call.s
        = hashRemove (st.table.part call.s) st.table.mem l := Function.update_self ..
    refine ⟨l, rest, hvictim, ?_⟩
    refine h.within t call _ hlock (Function.update_self ..) rfl ?_ hframe.key ?_ ?_
    · exact (congrArg Partition.maxSize hpart).trans h.share
    · split <;> rfl
    · have hcharge : ∀ w : ℕ, (if w = 0 then LockingPc.free l (.evict call)
          else ReleaseRet.next (.evict call)).charged = elemSize call.size := by
        intro w
        split <;> rfl
      rw [hcharge]
      show Making limit call _ ((st.setPart call.s _).table.part call.s) _ _ _
      rw [hpart]
      exact hmaking.evict h.share hgt hlast hframe
  · cases hstep

/-- **An insert takes effect** where it links its element. -/
theorem Serving.link (h : Serving limit st log call.s c drops) (hI : Inv st log)
    (hpc : st.pc t = .evict call) (hle : (st.table.part call.s).size ≤ (st.table.part call.s).maxSize)
    {e : ℕ} (hfresh : st.table.mem.Fresh e CACHELINE) :
    (FillingCache.Op.insert call.key (elemSize call.size) e).New limit c ∧
      FillingCache.insert limit call.key (elemSize call.size) e c
        = ((FillingCache.insert limit call.key (elemSize call.size) e c).1, ⟨none, drops⟩) ∧
      Serving limit (st.link t call e
          { st.table.mem with blocks := (e, CACHELINE) :: st.table.mem.blocks })
        (log ++ [.inserted t e]) call.s
        (FillingCache.insert limit call.key (elemSize call.size) e c).1 [] := by
  have hholds : (st.pc t).holds = some call.s := by rw [hpc]; rfl
  have hlock := (hI.bodies.holding t call.s).mp hholds
  obtain ⟨hbody, hcharged⟩ := body_eq st hlock hpc
  have hmaking := h.part call hbody
  rw [hcharged] at hmaking
  have hdead := hfresh.not_live
  obtain ⟨hdrops, hrep⟩ := hmaking.link h.share hle hdead (hI.bodies.absent t call (by rw [hpc]; rfl))
    (DATA_READY_MASK ||| 1)
  refine ⟨⟨hrep.vals_nodup, fun hin => ?_⟩, by rw [← hdrops]; rfl, ?_⟩
  · exact hdead (hI.live_of_filling ((h.filling e).mp hin).1)
  set st' := st.link t call e { st.table.mem with blocks := (e, CACHELINE) :: st.table.mem.blocks }
    with hst'
  have hpart : st'.table.part call.s = (linkElem (st.table.part call.s)
      { st.table.mem with blocks := (e, CACHELINE) :: st.table.mem.blocks } e call.key
      (elemSize call.size)).1 := Function.update_self ..
  have hbody' := (body_eq st' hlock (Function.update_self ..)).1
  have hkeys : ∀ a, (st'.table.mem.elem a).key = if a = e then call.key else (st.table.mem.elem a).key := by
    intro a
    refine (Mem.recount _ e (DATA_READY_MASK ||| 1) a).1.trans ?_
    show ((Mem.setElem _ e _).elem a).key = _
    by_cases ha : a = e
    · subst ha
      rw [Mem.setElem_self, if_pos rfl]
    · rw [Mem.setElem_of_ne _ _ ha, if_neg ha]
  refine ⟨(congrArg Partition.maxSize hpart).trans h.share, ?_, fun _ => ⟨?_, rfl⟩, ?_⟩
  · intro a
    show a ∈ e :: c.filling ↔ 0 < SmpHashTable.filling (log ++ [.inserted t e]) a ∧
      hashGetServer st.table.nservers (st'.table.mem.elem a).key = call.s
    rw [hkeys, (tallies_inserted log t e a).2.1, List.mem_cons, h.filling]
    by_cases ha : a = e
    · subst ha
      rw [if_pos rfl, if_pos rfl]
      exact ⟨fun _ => ⟨Nat.succ_pos _, hI.bodies.aimed t call (by rw [hpc]; rfl)⟩, fun _ => Or.inl rfl⟩
    · rw [if_neg ha, if_neg (Ne.symm ha), or_iff_right ha]
  · rw [hpart]
    exact hrep
  · intro call' hcall
    rw [hbody'] at hcall
    cases hcall

/-- **`atomic_mark_ready` takes effect**, whatever the holder of the lock is doing. -/
theorem Serving.publish (h : Serving limit st log s c drops) (hI : Inv st log) (hidle : st.pc t = .idle)
    (hI' : Inv st' (log ++ [.marked t e])) (hs : s < st.table.nservers)
    (hstep : st.update t e clearReadyMask .client = .ok st') :
    Serving limit st' (log ++ [.marked t e]) s (FillingCache.publish e c).1 drops := by
  obtain ⟨-, rfl⟩ := update_ok hstep
  have hrecount := st.table.mem.recount e (clearReadyMask (st.table.mem.elem e).refCount)
  have hnone : ∀ s, (st.pc t).holds ≠ some s := fun s => by rw [hidle]; exact nofun
  obtain ⟨-, hmaking, hcharged⟩ := hI.bodies.lock_of_ne (s := s) hI'.bodies rfl (hnone s)
    (by split <;> exact nofun)
  have hkeep : ∀ a ∈ (st.table.part s).elems, (st.table.mem.setElem e { st.table.mem.elem e with
      refCount := clearReadyMask (st.table.mem.elem e).refCount }).Live a ∧ _ ∧ _ :=
    fun a ha => ⟨(hI.bodies.shape s hs).live a ha, hrecount a⟩
  refine ⟨h.share, ?_, ?_, ?_⟩
  · intro a
    show a ∈ c.filling.filter (· ≠ e) ↔ 0 < SmpHashTable.filling (log ++ [.marked t e]) a ∧
      hashGetServer st.table.nservers ((st.table.mem.setElem e _).elem a).key = s
    rw [(hrecount a).1, (tallies_marked log t e a).2.1, List.mem_filter, h.filling, decide_eq_true_eq]
    have hle := (hI.counts.account a).filling_le
    by_cases ha : a = e
    · subst ha
      rw [if_pos rfl]
      exact ⟨fun hand => absurd rfl hand.2, fun hand => by omega⟩
    · rw [if_neg (Ne.symm ha)]
      exact and_iff_left ha
  · intro hno
    rw [hmaking] at hno
    exact ⟨(h.whole hno).1.congr_mem hkeep, (h.whole hno).2⟩
  · intro call hcall
    rw [hmaking] at hcall
    rw [hcharged]
    exact (h.part call hcall).congr_mem hkeep

end

/-! ### Where a call goes on -/

/-- After an atomic operation the thread goes on where the caller says, or frees the element first. -/
theorem update_pc {f : ℕ → ℕ} {ret : ReleaseRet} (hstep : st.update t e f ret = .ok st') :
    st'.pc t = .free e ret ∨ st'.pc t = ret.next := by
  obtain ⟨-, rfl⟩ := update_ok hstep
  show Function.update _ t _ t = _ ∨ Function.update _ t _ t = _
  rw [Function.update_self]
  split
  · exact Or.inl rfl
  · exact Or.inr rfl

theorem evict_pc {call : InsertCall} {tscs : List ℕ} (hstep : st.evict t call tscs = .ok st') :
    (∃ e, st'.pc t = .free e (.evict call)) ∨ st'.pc t = .evict call := by
  unfold Locking.evict at hstep
  split at hstep
  · obtain ⟨⟨l, rest⟩, -, hrem⟩ := Outcome.bind_ok.mp hstep
    exact (update_pc hrem).imp_left fun h => ⟨l, h⟩
  · cases hstep

/-- Where a step of a call in progress leads to `st'`, with its events and what takes effect. -/
inductive Goes (st' : Locking) (t : ℕ) :
    LockingPc → LockingPc → List LockingEvent → List LockingPoint → Prop
  | found (s key e : ℕ) : Goes st' t (.lookup s key) (.take s e) [] [.lookup t s key (some e)]
  | missed (s key : ℕ) : Goes st' t (.lookup s key) (.leave s 0) [] [.lookup t s key none]
  | taken (s e : ℕ) : Goes st' t (.take s e) (.leave s (valuePtr e)) [.took t e] []
  | dropping (call : InsertCall) (e : ℕ) :
      Goes st' t (.insert call) (.free e (.charge call)) [] [.drop call.s e]
  | dropped (call : InsertCall) (e : ℕ) : Goes st' t (.insert call) (.charge call) [] [.drop call.s e]
  | absent (call : InsertCall) : Goes st' t (.insert call) (.charge call) [] []
  | charged (call : InsertCall) : Goes st' t (.charge call) (.evict call) [] []
  | evicting (call : InsertCall) (e : ℕ) :
      Goes st' t (.evict call) (.free e (.evict call)) [] [.drop call.s e]
  | evicted (call : InsertCall) (e : ℕ) : Goes st' t (.evict call) (.evict call) [] [.drop call.s e]
  | linked (call : InsertCall) (e : ℕ) (hkey : (st'.table.mem.elem e).key = call.key) :
      Goes st' t (.evict call) (.leave call.s (valuePtr e)) [.inserted t e]
        [.insert t call.s call.key (elemSize call.size) e]
  | freed (e : ℕ) (ret : ReleaseRet) : Goes st' t (.free e ret) ret.next [.freed t e] []
  | left (s value : ℕ) : Goes st' t (.leave s value) .idle [.returned t value] []

/-- `memalign` gives what the environment answers. -/
theorem memalign_answer {m m' : Mem} {boundary n : ℕ} {answer got : Option ℕ}
    (h : memalign m boundary n answer = .ok (got, m')) : answer = got := by
  cases answer with
  | none =>
      cases h
      rfl
  | some a =>
      rw [memalign] at h
      split at h
      · cases h
        rfl
      · cases h

/-- A round of eviction drops the victim. -/
theorem evict_goes {call : InsertCall} {alloc : Option ℕ} {tscs : List ℕ} (hpc : st.pc t = .evict call)
    (hnone : (if (st.table.part call.s).size ≤ (st.table.part call.s).maxSize then alloc else none) = none)
    (hstep : st.evict t call tscs = .ok st') :
    Goes st' t (st.pc t) (st'.pc t) [] (st.points (.next t alloc tscs)) := by
  unfold Locking.evict at hstep
  split at hstep
  · obtain ⟨⟨l, rest⟩, hvictim, hrem⟩ := Outcome.bind_ok.mp hstep
    have hpoints : st.points (.next t alloc tscs) = [.drop call.s l] := by
      simp only [points, hpc, hnone, hvictim]
    rw [hpoints, hpc]
    rcases update_pc hrem with hpc' | hpc'
    · rw [hpc']
      exact .evicting call l
    · rw [hpc']
      exact .evicted call l
  · cases hstep

/-- **What a step of a call in progress can be.** -/
theorem next_goes {alloc : Option ℕ} {tscs : List ℕ} (hstep : st.next t alloc tscs = .ok (st', evs)) :
    Goes st' t (st.pc t) (st'.pc t) evs (st.points (.next t alloc tscs)) := by
  have hself : ∀ (st₁ : Locking) (pc : LockingPc), (st₁.setPc t pc).pc t = pc :=
    fun _ _ => Function.update_self ..
  cases hpc : st.pc t with
  | idle =>
      simp only [Locking.next, hpc] at hstep
      cases hstep
  | lookup s key =>
      have hpoints : st.points (.next t alloc tscs) = [.lookup t s key
          ((hashLookup (st.table.part s) st.table.mem key).1.filter (isValueReady st.table.mem))] := by
        simp only [points, hpc]
      rw [hpoints]
      simp only [Locking.next, hpc] at hstep
      split at hstep
      · next e hfound =>
        rw [hfound, Option.filter_some]
        split at hstep
        · cases hstep
          rw [hself]
          split
          · exact .found s key e
          · exact .missed s key
        · cases hstep
      · next hfound =>
        rw [hfound]
        cases hstep
        rw [hself]
        exact .missed s key
  | take s e =>
      have hpoints : st.points (.next t alloc tscs) = [] := by simp only [points, hpc]
      rw [hpoints]
      simp only [Locking.next, hpc] at hstep
      split at hstep
      · cases hstep
        rw [hself]
        exact .taken s e
      · cases hstep
  | insert call =>
      have hpoints : st.points (.next t alloc tscs)
          = (hashLookup (st.table.part call.s) st.table.mem call.key).1.toList.map (.drop call.s) := by
        simp only [points, hpc]
      rw [hpoints]
      simp only [Locking.next, hpc] at hstep
      split at hstep
      · next e hfound =>
        obtain ⟨st₁, hrem, heq⟩ := Outcome.map_ok.mp hstep
        cases heq
        rw [hfound]
        rcases update_pc hrem with hpc' | hpc'
        · rw [hpc']
          exact .dropping call e
        · rw [hpc']
          exact .dropped call e
      · next hfound =>
        cases hstep
        rw [hfound, hself]
        exact .absent call
  | charge call =>
      have hpoints : st.points (.next t alloc tscs) = [] := by simp only [points, hpc]
      rw [hpoints]
      simp only [Locking.next, hpc] at hstep
      cases hstep
      rw [hself]
      exact .charged call
  | evict call =>
      rw [← hpc]
      have hnext := hstep
      simp only [Locking.next, hpc] at hstep
      split at hstep
      · next hle =>
        obtain ⟨⟨got, m⟩, halloc, hstep⟩ := Outcome.bind_ok.mp hstep
        cases got with
        | some e =>
            obtain ⟨-, rfl⟩ := memalign_some halloc
            have hanswer : alloc = some e := memalign_answer halloc
            have hpoints : st.points (.next t alloc tscs)
                = [.insert t call.s call.key (elemSize call.size) e] := by
              simp only [points, hpc, if_pos hle, hanswer]
            rw [hpoints, hpc]
            cases hstep
            have hpc' : (st.link t call e { st.table.mem with
                blocks := (e, CACHELINE) :: st.table.mem.blocks }).pc t
                = .leave call.s (valuePtr e) := hself ..
            rw [hpc']
            refine .linked call e ((Mem.recount _ e (DATA_READY_MASK ||| 1) e).1.trans ?_)
            exact congrArg Elem.key (Mem.setElem_self ..)
        | none =>
            obtain ⟨st₁, hevict, heq⟩ := Outcome.map_ok.mp hstep
            cases heq
            exact evict_goes hpc (by rw [if_pos hle]; exact memalign_answer halloc) hevict
      · next hgt =>
        obtain ⟨st₁, hevict, heq⟩ := Outcome.map_ok.mp hstep
        cases heq
        exact evict_goes hpc (if_neg hgt) hevict
  | free e ret =>
      have hpoints : st.points (.next t alloc tscs) = [] := by simp only [points, hpc]
      rw [hpoints]
      simp only [Locking.next, hpc] at hstep
      obtain ⟨m, -, hstep⟩ := Outcome.bind_ok.mp hstep
      cases hstep
      rw [hself]
      exact .freed e ret
  | leave s value =>
      have hpoints : st.points (.next t alloc tscs) = [] := by simp only [points, hpc]
      rw [hpoints]
      simp only [Locking.next, hpc] at hstep
      cases hstep
      rw [hself]
      exact .left s value

/-- A call in progress stays in its partition, keeps its arguments and takes effect there. -/
theorem Goes.stays {pc pc' : LockingPc} {pts : List LockingPoint} (h : Goes st' t pc pc' evs pts) :
    (∀ s, pc'.holds = some s → pc.holds = some s) ∧ (∀ call, pc'.call = some call → pc.call = some call) ∧
      ∀ p ∈ pts, pc.holds = some p.part := by
  cases h with
  | freed e ret => cases ret <;> exact ⟨fun _ h => h, fun _ h => h, fun _ h => by cases h⟩
  | found | missed | dropping | dropped | evicting | evicted =>
      exact ⟨fun _ h => h, fun _ h => h, fun _ h => List.mem_singleton.mp h ▸ rfl⟩
  | linked =>
      exact ⟨fun _ h => h, fun _ h => (by cases h), fun _ h => List.mem_singleton.mp h ▸ rfl⟩
  | taken | absent | charged => exact ⟨fun _ h => h, fun _ h => h, fun _ h => by cases h⟩
  | left => exact ⟨fun _ h => (by cases h), fun _ h => (by cases h), fun _ h => by cases h⟩

/-- A call in progress marks no element but a new one. -/
theorem Goes.marks {pc pc' : LockingPc} {pts : List LockingPoint} (h : Goes st' t pc pc' evs pts)
    (log : List LockingEvent) (e : ℕ) : SmpHashTable.filling (log ++ evs) e = SmpHashTable.filling log e ∨
      ∃ call, pc = .evict call ∧ evs = [.inserted t e] ∧ (st'.table.mem.elem e).key = call.key := by
  cases h with
  | taken s a => exact Or.inl (tallies_took log t a e).2.1
  | freed a ret => exact Or.inl (tallies_freed log t a e).2.1
  | left s value => exact Or.inl (tallies_returned log t value e).2.1
  | linked call a hkey =>
      by_cases hae : a = e
      · subst hae
        exact Or.inr ⟨call, rfl, rfl, hkey⟩
      · rw [(tallies_inserted log t a e).2.1, if_neg hae]
        exact Or.inl rfl
  | _ => exact Or.inl (by rw [List.append_nil])

/-- The result of a call in progress is fixed when the call takes effect. -/
theorem Goes.owed {pc pc' : LockingPc} {pts : List LockingPoint} (h : Goes st' t pc pc' evs pts) :
    pc.owed ++ results t pts = returnedBy t evs ++ pc'.owed := by
  cases h with
  | freed e ret => cases ret <;> rfl
  | _ => simp [LockingPc.owed, results, returnedBy]

/-- Other threads have nothing to do with it. -/
theorem Goes.others {pc pc' : LockingPc} {pts : List LockingPoint} (h : Goes st' t pc pc' evs pts) {t' : ℕ}
    (hne : t' ≠ t) : results t' pts = [] ∧ returnedBy t' evs = [] := by
  cases h <;> simp [results, returnedBy, hne.symm]

end Locking

/-! ### Every run -/

/-- What takes effect in other partitions does not show in partition `s`. -/
theorem effects_of_ne {s : ℕ} (pts : List LockingPoint) {pts' : List LockingPoint}
    (hne : ∀ p ∈ pts', p.part ≠ s) : effects s (pts ++ pts') = effects s pts := by
  rw [effects_append]
  generalize effects s pts = h
  induction pts' with
  | nil => rfl
  | cons p pts' ih =>
      have hp : p.follow s h = h := by
        have hpart := hne p List.mem_cons_self
        cases p <;> exact if_neg hpart
      rw [List.foldl_cons, hp]
      exact ih fun q hq => hne q (List.mem_cons_of_mem p hq)

/-- An element has no more handles than there have been events. -/
theorem handles_le_length (log : List LockingEvent) (e : ℕ) : handles log e ≤ log.length := by
  induction log using List.reverseRecOn with
  | nil => exact Nat.zero_le _
  | append_singleton log ev ih =>
      rw [List.length_append, List.length_singleton, handles, List.foldl_append]
      change handles log e ≤ log.length at ih
      show List.foldl _ (handles log e) [ev] ≤ _
      cases ev with
      | took t a | gave t a =>
          simp only [List.foldl_cons, List.foldl_nil]
          split <;> omega
      | _ => exact ih.trans (Nat.le_succ _)

namespace Locking

variable {st st' : Locking} {log evs : List LockingEvent} {t s e limit : ℕ} {pts : List LockingPoint}
  {alloc : Option ℕ} {tscs : List ℕ}

/-- **The invariant**: what has taken effect in a partition is what its cache does, and each call
that has taken effect has returned its result or owes it. -/
structure Linear (limit : ℕ) (st : Locking) (log : List LockingEvent) (pts : List LockingPoint) : Prop where
  inv : Inv st log
  sized : ∀ t call, (st.pc t).call = some call → elemSize call.size < 2 ^ 32
  serving : log.length + 1 < 2 ^ 63 → ∀ s < st.table.nservers, ∃ c,
    FillingCache.Explains limit (effects s pts).1 c ∧ Serving limit st log s c (effects s pts).2
  results : ∀ t, SmpHashTable.results t pts = returnedBy t log ++ (st.pc t).owed

theorem Linear.init (maxSize nservers : ℕ) :
    Linear (maxSize / nservers) (.init (createHashTable maxSize nservers .lru)) [] [] := by
  refine ⟨⟨.init maxSize .lru, counts_init maxSize nservers .lru⟩, nofun, ?_, fun _ => rfl⟩
  intro _ s hs
  have hge := initNhash_ge (maxSize / nservers) nservers (lt_of_le_of_lt (Nat.zero_le s) hs)
  refine ⟨.empty, FillingCache.explains_nil _, rfl, ?_, fun _ => ⟨?_, rfl⟩, nofun⟩
  · intro e
    exact ⟨fun he => (by cases he), fun hpos => absurd hpos.1 (Nat.lt_irrefl 0)⟩
  · exact emptyPartition_lruRep Mem.empty (by omega)

/-- An element has too few references to reach the mask. -/
theorem refs_lt (st : Locking) (hlen : log.length + 1 < 2 ^ 63) (e : ℕ) :
    st.refs log e < DATA_READY_MASK := by
  have hhandles := handles_le_length log e
  rw [refs, readyMask_eq]
  split <;> omega

/-- **A call goes on in the partition it has locked.** -/
theorem Linear.own (h : Linear limit st log pts) (hI' : Inv st' (log ++ evs)) (hlimit : limit < 2 ^ 63)
    (hlen : log.length + 1 < 2 ^ 63) (hholds : (st.pc t).holds = some s) (hgot : alloc.isSome = true)
    (hstep : st.next t alloc tscs = .ok (st', evs)) :
    ∃ c, FillingCache.Explains limit (effects s (pts ++ st.points (.next t alloc tscs))).1 c ∧
      Serving limit st' (log ++ evs) s c (effects s (pts ++ st.points (.next t alloc tscs))).2 := by
  have hs := h.inv.bodies.inside t s hholds
  have hlock := (h.inv.bodies.holding t s).mp hholds
  have hlocal := next_local hstep
  obtain ⟨c, hc, hserving⟩ := h.serving hlen s hs
  rw [effects_append]
  cases hpc : st.pc t with
  | idle =>
      rw [hpc] at hholds
      cases hholds
  | lookup s' key =>
      rw [hpc] at hholds
      cases hholds
      have hpoints : st.points (.next t alloc tscs) = [.lookup t s key
          ((hashLookup (st.table.part s) st.table.mem key).1.filter (isValueReady st.table.mem))] := by
        simp only [points, hpc]
      obtain ⟨rfl, hop, hserving'⟩ := hserving.lookup h.inv hpc (refs_lt st hlen) hstep
      rw [hpoints, List.append_nil, List.foldl_cons, List.foldl_nil, LockingPoint.follow, if_pos rfl]
      exact ⟨_, hc.concat trivial hop, hserving'⟩
  | take s' a =>
      rw [hpc] at hholds
      cases hholds
      have hpoints : st.points (.next t alloc tscs) = [] := by simp only [points, hpc]
      rw [hpoints, List.foldl_nil]
      simp only [Locking.next, hpc] at hstep
      split at hstep
      · cases hstep
        obtain ⟨hmaking, hcharged⟩ := body_eq st hlock hpc
        obtain ⟨hmaking', hcharged'⟩ := body_eq ((st.setRefCount a
          (add64 (st.table.mem.elem a).refCount 1)).setPc t (.leave s (valuePtr a))) hlock
          (Function.update_self ..)
        exact ⟨c, hc, hserving.untouched h.inv hI' hs hlocal rfl rfl
          ⟨hmaking'.trans hmaking.symm, hcharged'.trans hcharged.symm⟩
          fun e => Or.inl (tallies_took log t a e).2.1⟩
      · cases hstep
  | insert call =>
      rw [hpc] at hholds
      cases hholds
      have hpoints : st.points (.next t alloc tscs)
          = (hashLookup (st.table.part call.s) st.table.mem call.key).1.toList.map (.drop call.s) := by
        simp only [points, hpc]
      obtain ⟨rfl, hserving'⟩ := hserving.begin h.inv hpc hstep
      rw [hpoints, List.append_nil]
      refine ⟨c, ?_⟩
      cases hold : (hashLookup (st.table.part call.s) st.table.mem call.key).1 with
      | none =>
          rw [hold, Option.toList_none, List.append_nil] at hserving'
          exact ⟨hc, hserving'⟩
      | some a =>
          rw [hold, Option.toList_some] at hserving'
          rw [Option.toList_some, List.map_singleton, List.foldl_cons, List.foldl_nil, LockingPoint.follow,
            if_pos rfl]
          exact ⟨hc, hserving'⟩
  | charge call =>
      rw [hpc] at hholds
      cases hholds
      have hpoints : st.points (.next t alloc tscs) = [] := by simp only [points, hpc]
      simp only [Locking.next, hpc] at hstep
      cases hstep
      rw [hpoints, List.append_nil, List.foldl_nil]
      exact ⟨c, hc, hserving.charge h.inv hpc hlimit (h.sized t call (by rw [hpc]; rfl))⟩
  | evict call =>
      rw [hpc] at hholds
      cases hholds
      simp only [Locking.next, hpc] at hstep
      split at hstep
      · next hle =>
        obtain ⟨⟨got, m⟩, halloc, hstep⟩ := Outcome.bind_ok.mp hstep
        have hanswer := memalign_answer halloc
        subst hanswer
        obtain ⟨a, rfl⟩ := Option.isSome_iff_exists.mp hgot
        obtain ⟨hfresh, rfl⟩ := memalign_some halloc
        cases hstep
        have hpoints : st.points (.next t (some a) tscs)
            = [.insert t call.s call.key (elemSize call.size) a] := by
          simp only [points, hpc, if_pos hle]
        obtain ⟨hnew, hop, hserving'⟩ := hserving.link h.inv hpc hle hfresh
        rw [hpoints, List.foldl_cons, List.foldl_nil, LockingPoint.follow, if_pos rfl]
        exact ⟨_, hc.concat hnew hop, hserving'⟩
      · next hgt =>
        obtain ⟨st₁, hevict, heq⟩ := Outcome.map_ok.mp hstep
        cases heq
        obtain ⟨l, rest, hvictim, hserving'⟩ := hserving.evict h.inv hpc hgt hevict
        have hpoints : st.points (.next t alloc tscs) = [.drop call.s l] := by
          simp only [points, hpc, if_neg hgt, hvictim]
        rw [hpoints, List.append_nil, List.foldl_cons, List.foldl_nil, LockingPoint.follow, if_pos rfl]
        exact ⟨c, hc, hserving'⟩
  | free a ret =>
      have hpoints : st.points (.next t alloc tscs) = [] := by simp only [points, hpc]
      rw [hpoints, List.foldl_nil]
      simp only [Locking.next, hpc] at hstep
      obtain ⟨m, -, hstep⟩ := Outcome.bind_ok.mp hstep
      cases hstep
      obtain ⟨hmaking, hcharged⟩ := body_eq st hlock hpc
      obtain ⟨hmaking', hcharged'⟩ := body_eq ({ st with table := { st.table with mem := m } }.setPc t
        ret.next) hlock (Function.update_self ..)
      have hsame : ret.next.making = (LockingPc.free a ret).making ∧
          ret.next.charged = (LockingPc.free a ret).charged := by
        cases ret <;> exact ⟨rfl, rfl⟩
      exact ⟨c, hc, hserving.untouched h.inv hI' hs hlocal rfl rfl
        ⟨hmaking'.trans (hsame.1.trans hmaking.symm), hcharged'.trans (hsame.2.trans hcharged.symm)⟩
        fun e => Or.inl (tallies_freed log t a e).2.1⟩
  | leave s' value =>
      rw [hpc] at hholds
      cases hholds
      have hpoints : st.points (.next t alloc tscs) = [] := by simp only [points, hpc]
      rw [hpoints, List.foldl_nil]
      simp only [Locking.next, hpc] at hstep
      cases hstep
      obtain ⟨hmaking, hcharged⟩ := body_eq st hlock hpc
      have hunlocked : ({ st with lock := Function.update st.lock s none }.setPc t .idle).lock s = none :=
        Function.update_self ..
      have hbody : ({ st with lock := Function.update st.lock s none }.setPc t .idle).making s = none ∧
          ({ st with lock := Function.update st.lock s none }.setPc t .idle).charged s = 0 := by
        rw [making, charged, hunlocked]
        exact ⟨rfl, rfl⟩
      exact ⟨c, hc, hserving.untouched h.inv hI' hs hlocal rfl rfl
        ⟨hbody.1.trans hmaking.symm, hbody.2.trans hcharged.symm⟩
        fun e => Or.inl (tallies_returned log t value e).2.1⟩

/-- A call that acquires the lock of a partition leaves all partitions as they are. -/
theorem Serving.acquire {c : FillingCache.Cache ℕ ℕ} {drops : List ℕ} (h : Serving limit st log s c drops)
    (hI : Inv st log) (hI' : Inv st' (log ++ evs)) (hs : s < st.table.nservers) {s₀ : ℕ} {pc : LockingPc}
    (hpc : pc.holds = some s₀ ∧ pc.making = none ∧ pc.charged = 0)
    (hstep : st.acquire t s₀ pc = .ok (st', evs)) : Serving limit st' (log ++ evs) s c drops := by
  have hlocal := acquire_local hstep
  have hframe := acquire_frame hstep
  unfold Locking.acquire at hstep
  split at hstep
  · next hidle hfree =>
    cases hstep
    have hnone : (st.pc t).holds ≠ some s := by
      rw [hidle]
      exact fun heq => by cases heq
    have hsame : ∀ e, SmpHashTable.filling (log ++ []) e = SmpHashTable.filling log e := fun e => by
      rw [List.append_nil]
    by_cases heq : s = s₀
    · subst heq
      have hlock : ({ st with lock := Function.update st.lock s (some t) }.setPc t pc).lock s = some t :=
        Function.update_self ..
      obtain ⟨hmaking, hcharged⟩ := body_eq _ hlock (Function.update_self ..)
      have hbody : st.making s = none ∧ st.charged s = 0 := by
        rw [making, charged, hfree]
        exact ⟨rfl, rfl⟩
      refine h.untouched hI hI' hs hlocal rfl rfl ⟨?_, ?_⟩ fun e => Or.inl (hsame e)
      · rw [hmaking, hpc.2.1, hbody.1]
      · rw [hcharged, hpc.2.2, hbody.2]
    · refine h.elsewhere hI hI' hs hlocal hframe hnone ?_ fun e => Or.inl (hsame e)
      show (Function.update st.pc t pc t).holds ≠ some s
      rw [Function.update_self, hpc.1]
      exact fun hsome => heq (Option.some.inj hsome).symm
  · cases hstep

/-- An atomic operation of a client takes no lock. -/
theorem update_client {f : ℕ → ℕ} (hstep : st.update t e f .client = .ok st') :
    (st'.pc t).holds = none ∧ (st'.pc t).call = none ∧ (st'.pc t).owed = [] := by
  rcases update_pc hstep with hpc | hpc
  · rw [hpc]
    exact ⟨rfl, rfl, rfl⟩
  · rw [hpc]
    exact ⟨rfl, rfl, rfl⟩

/-- **A step outside partition `s`**, or one that gets there. -/
theorem Linear.outside (h : Linear limit st log pts) (hI' : Inv st' (log ++ evs))
    (hlen : log.length + 1 < 2 ^ 63) (hs : s < st.table.nservers) {a : LockingAct} (hok : a.Ok log)
    (hnot : (st.pc a.thread).holds ≠ some s) (hstep : st.step a = .ok (st', evs)) :
    ∃ c, FillingCache.Explains limit (effects s (pts ++ st.points a)).1 c ∧
      Serving limit st' (log ++ evs) s c (effects s (pts ++ st.points a)).2 := by
  obtain ⟨c, hc, hserving⟩ := h.serving hlen s hs
  have hlocal := step_local hstep
  have hframe := step_frame hstep
  cases a with
  | lookup t key =>
      have hpoints : st.points (.lookup t key) = [] := rfl
      rw [hpoints, List.append_nil]
      exact ⟨c, hc, hserving.acquire h.inv hI' hs ⟨rfl, rfl, rfl⟩ hstep⟩
  | insert t key size =>
      have hpoints : st.points (.insert t key size) = [] := rfl
      rw [hpoints, List.append_nil]
      exact ⟨c, hc, hserving.acquire h.inv hI' hs ⟨rfl, rfl, rfl⟩ hstep⟩
  | release t e =>
      have hpoints : st.points (.release t e) = [] := rfl
      rw [hpoints, List.append_nil]
      simp only [Locking.step] at hstep
      split at hstep
      · obtain ⟨st₁, hup, heq⟩ := Outcome.map_ok.mp hstep
        cases heq
        refine ⟨c, hc, hserving.elsewhere h.inv hI' hs hlocal hframe hnot ?_ fun a =>
          Or.inl (tallies_gave log t e a).2.1⟩
        rw [LockingAct.thread, (update_client hup).1]
        exact fun heq => by cases heq
      · cases hstep
  | markReady t e =>
      have hpoints : st.points (.markReady t e)
          = [.publish (hashGetServer st.table.nservers (st.table.mem.elem e).key) e] := rfl
      simp only [Locking.step] at hstep
      split at hstep
      · next hidle =>
        obtain ⟨st₁, hup, heq⟩ := Outcome.map_ok.mp hstep
        cases heq
        by_cases hhome : hashGetServer st.table.nservers (st.table.mem.elem e).key = s
        · rw [effects_append, hpoints, List.foldl_cons, List.foldl_nil, LockingPoint.follow, if_pos hhome]
          exact ⟨_, hc.concat trivial rfl, hserving.publish h.inv hidle hI' hs hup⟩
        · rw [effects_of_ne pts fun p hp => by rw [hpoints, List.mem_singleton] at hp; rw [hp]; exact hhome]
          refine ⟨c, hc, hserving.elsewhere h.inv hI' hs hlocal hframe hnot ?_ fun a => ?_⟩
          · rw [LockingAct.thread, (update_client hup).1]
            exact fun heq => by cases heq
          · by_cases hae : e = a
            · subst hae
              refine Or.inr ⟨?_, fun _ => hhome⟩
              rw [(hlocal.keeps e (h.inv.live_of_filling hok)).1]
              exact hhome
            · rw [(tallies_marked log t e a).2.1, if_neg hae]
              exact Or.inl rfl
      · cases hstep
  | next t alloc tscs =>
      have hgoes := next_goes hstep
      obtain ⟨hholds, -, hparts⟩ := hgoes.stays
      have hne : ∀ p ∈ st.points (.next t alloc tscs), p.part ≠ s := by
        rintro p hp rfl
        exact hnot (hparts p hp)
      rw [effects_of_ne pts hne]
      refine ⟨c, hc, hserving.elsewhere h.inv hI' hs hlocal hframe hnot (fun hs' => hnot (hholds s hs')) ?_⟩
      intro a
      rcases hgoes.marks log a with hsame | ⟨call, hpc, hevs, hkey⟩
      · exact Or.inl hsame
      · have haimed := h.inv.bodies.aimed t call (by rw [hpc]; rfl)
        have hle := (hI'.counts.account a).filling_le
        rw [hevs, (tallies_inserted log t a a).2.1, if_pos rfl] at hle
        refine Or.inr ⟨?_, fun hpos => by omega⟩
        rw [hkey, haimed]
        intro heq
        rw [LockingAct.thread, hpc, heq.symm] at hnot
        exact hnot rfl

/-- A call starts, or a client releases or marks an element. -/
structure Starts (st st' : Locking) (a : LockingAct) (evs : List LockingEvent) : Prop where
  idle : st.pc a.thread = .idle
  owed : (st'.pc a.thread).owed = []
  call : ∀ call, (st'.pc a.thread).call = some call → a = .insert a.thread call.key call.size
  silent : ∀ t, SmpHashTable.results t (st.points a) = [] ∧ returnedBy t evs = []

/-- **What a step of a thread outside the functions of the table can be.** -/
theorem step_starts {a : LockingAct} (hstep : st.step a = .ok (st', evs)) :
    (∃ t alloc tscs, a = .next t alloc tscs) ∨ Starts st st' a evs := by
  have hacquire : ∀ {t s : ℕ} {pc : LockingPc}, st.acquire t s pc = .ok (st', evs) →
      st.pc t = .idle ∧ st'.pc t = pc ∧ evs = [] := by
    intro t s pc hacq
    unfold Locking.acquire at hacq
    split at hacq
    · next hidle _ =>
      cases hacq
      exact ⟨hidle, Function.update_self .., rfl⟩
    · cases hacq
  cases a with
  | next t alloc tscs => exact Or.inl ⟨t, alloc, tscs, rfl⟩
  | lookup t key =>
      obtain ⟨hidle, hpc, rfl⟩ := hacquire hstep
      refine Or.inr ⟨hidle, ?_, ?_, fun _ => ⟨rfl, rfl⟩⟩
      · rw [LockingAct.thread, hpc]
        rfl
      · intro call hcall
        rw [LockingAct.thread, hpc] at hcall
        cases hcall
  | insert t key size =>
      obtain ⟨hidle, hpc, rfl⟩ := hacquire hstep
      refine Or.inr ⟨hidle, ?_, ?_, fun _ => ⟨rfl, rfl⟩⟩
      · rw [LockingAct.thread, hpc]
        rfl
      · intro call hcall
        rw [LockingAct.thread, hpc] at hcall
        cases hcall
        rfl
  | release t e =>
      simp only [Locking.step] at hstep
      split at hstep
      · next hidle =>
        obtain ⟨st₁, hup, heq⟩ := Outcome.map_ok.mp hstep
        cases heq
        obtain ⟨-, hcall, howed⟩ := update_client hup
        refine Or.inr ⟨hidle, howed, ?_, fun _ => ⟨rfl, rfl⟩⟩
        intro call h
        rw [LockingAct.thread, hcall] at h
        cases h
      · cases hstep
  | markReady t e =>
      simp only [Locking.step] at hstep
      split at hstep
      · next hidle =>
        obtain ⟨st₁, hup, heq⟩ := Outcome.map_ok.mp hstep
        cases heq
        obtain ⟨-, hcall, howed⟩ := update_client hup
        refine Or.inr ⟨hidle, howed, ?_, fun _ => ⟨rfl, rfl⟩⟩
        intro call h
        rw [LockingAct.thread, hcall] at h
        cases h
      · cases hstep

/-- A call takes effect once, and returns the result it had then. -/
theorem step_results {a : LockingAct} (hstep : st.step a = .ok (st', evs)) (t : ℕ) :
    (st.pc t).owed ++ SmpHashTable.results t (st.points a)
      = returnedBy t evs ++ (st'.pc t).owed := by
  obtain ⟨pc, hpc⟩ := (step_frame hstep).own
  by_cases hne : t = a.thread
  · subst hne
    rcases step_starts hstep with ⟨t, alloc, tscs, rfl⟩ | hstarts
    · exact (next_goes hstep).owed
    · rw [hstarts.idle, hstarts.owed, (hstarts.silent _).1, (hstarts.silent _).2]
      rfl
  · have hsame : st'.pc t = st.pc t := by rw [hpc, Function.update_of_ne hne]
    have hsilent : SmpHashTable.results t (st.points a) = [] ∧ returnedBy t evs = [] := by
      rcases step_starts hstep with ⟨t', alloc, tscs, rfl⟩ | hstarts
      · exact (next_goes hstep).others hne
      · exact hstarts.silent t
    rw [hsame, hsilent.1, hsilent.2, List.append_nil, List.nil_append]

/-- The sizes of the inserts under way. -/
theorem step_sized {a : LockingAct} (hserved : a.Served) (hstep : st.step a = .ok (st', evs))
    (hsized : ∀ t call, (st.pc t).call = some call → elemSize call.size < 2 ^ 32) {call : InsertCall}
    (hcall : (st'.pc t).call = some call) : elemSize call.size < 2 ^ 32 := by
  obtain ⟨pc, hpc⟩ := (step_frame hstep).own
  by_cases hne : t = a.thread
  · subst hne
    rcases step_starts hstep with ⟨t, alloc, tscs, rfl⟩ | hstarts
    · exact hsized t call ((next_goes hstep).stays.2.1 call hcall)
    · rw [hstarts.call call hcall] at hserved
      exact (elemSize_bounds hserved.1 hserved.2).2
  · rw [hpc, Function.update_of_ne hne] at hcall
    exact hsized t call hcall

/-- **One step of the threads.** -/
theorem Linear.step (h : Linear limit st log pts) (hn : 0 < st.table.nservers) (hlimit : limit < 2 ^ 63)
    {a : LockingAct} (hok : a.Ok log) (hserved : a.Served) (hstep : st.step a = .ok (st', evs)) :
    Linear limit st' (log ++ evs) (pts ++ st.points a) := by
  have hI' := h.inv.step hn hok hstep
  refine ⟨hI', fun t call => step_sized hserved hstep h.sized, ?_, ?_⟩
  · intro hlen s hs
    rw [(step_frame hstep).nservers] at hs
    rw [List.length_append] at hlen
    by_cases hholds : (st.pc a.thread).holds = some s
    · rcases step_starts hstep with ⟨t, alloc, tscs, rfl⟩ | hstarts
      · exact h.own hI' hlimit (by omega) hholds hserved hstep
      · rw [hstarts.idle] at hholds
        cases hholds
    · exact h.outside hI' (by omega) hs hok hholds hstep
  · intro t
    rw [results_append, returnedBy_append, h.results t, List.append_assoc, step_results hstep t,
      List.append_assoc]

end Locking

/-- The runs of a locking table with LRU eviction that an environment serves, with what takes effect. -/
def Locking.Served (maxSize nservers : ℕ) : Locking → List LockingEvent → List LockingPoint → Prop :=
  Runs.Noted Locking.step (fun _ log a => a.Ok log ∧ a.Served) Locking.points
    (.init (createHashTable maxSize nservers .lru))

theorem Locking.Served.linear {maxSize nservers : ℕ} (hn : 0 < nservers) (hmax : maxSize / nservers < 2 ^ 63)
    {st : Locking} {log : List LockingEvent} {pts : List LockingPoint}
    (h : Locking.Served maxSize nservers st log pts) :
    Locking.Linear (maxSize / nservers) st log pts ∧ st.table.nservers = nservers := by
  refine Runs.Noted.invariant (P := fun st log pts => Locking.Linear (maxSize / nservers) st log pts ∧
    st.table.nservers = nservers) ⟨.init maxSize nservers, rfl⟩ ?_ h
  intro st st' log evs pts a hinv hok hstep
  refine ⟨hinv.1.step (hinv.2 ▸ hn) hmax hok.1 hok.2 hstep, ?_⟩
  rw [(Locking.step_frame hstep).nservers]
  exact hinv.2

/-- A partition does what a cache does, and has its entries while nobody holds the lock. -/
theorem Locking.Linear.cached {limit s : ℕ} {st : Locking} {log : List LockingEvent} {pts : List LockingPoint}
    (h : Locking.Linear limit st log pts) (hlen : log.length + 1 < 2 ^ 63) (hs : s < st.table.nservers) :
    ∃ c, FillingCache.Explains limit (effects s pts).1 c ∧
      (st.lock s = none → (effects s pts).2 = [] ∧
        (st.table.part s).lru.map (view st.table.mem) = c.entries) := by
  obtain ⟨c, hc, hserving⟩ := h.serving hlen s hs
  refine ⟨c, hc, fun hfree => ?_⟩
  have hmaking : st.making s = none := by
    rw [Locking.making, hfree]
    rfl
  obtain ⟨hrep, hdrops⟩ := hserving.whole hmaking
  exact ⟨hdrops, hrep.entries⟩

/-- **The locking table is linearizable (proved).**  What takes effect in a partition, in the order of
the steps, is what a cache of its size does from empty, whatever the order in which threads take their
steps; a partition whose lock is free has the entries of that cache.  Each thread's calls return what
they had when they took effect, in order. -/
theorem locking_linearizable {maxSize nservers : ℕ} (hn : 0 < nservers) (hmax : maxSize / nservers < 2 ^ 63)
    {st : Locking} {log : List LockingEvent} {pts : List LockingPoint}
    (h : Locking.Served maxSize nservers st log pts) (hlen : log.length + 1 < 2 ^ 63) :
    (∀ s < nservers, ∃ c, FillingCache.Explains (maxSize / nservers) (effects s pts).1 c ∧
      (st.lock s = none → (effects s pts).2 = [] ∧
        (st.table.part s).lru.map (view st.table.mem) = c.entries)) ∧
      ∀ t, results t pts = returnedBy t log ++ (st.pc t).owed := by
  obtain ⟨hlinear, hnservers⟩ := h.linear hn hmax
  exact ⟨fun s hs => hlinear.cached hlen (hnservers ▸ hs), hlinear.results⟩

instance LockingAct.decidableServed : (a : LockingAct) → Decidable a.Served
  | .insert _ _ _ => inferInstanceAs (Decidable (_ ∧ _))
  | .next _ _ _ => inferInstanceAs (Decidable (_ = _))
  | .lookup _ _ => isTrue trivial
  | .release _ _ => isTrue trivial
  | .markReady _ _ => isTrue trivial

/-- In a table with room for one element, thread 0 inserts key 5, thread 1 marks it ready and looks it
up, and thread 0 inserts key 6 in its place; thread 1 releases the old element in the middle of that. -/
def replaceRun : List LockingAct := List.flatten [
  .insert 0 5 8 :: List.replicate 4 (.next 0 (some 64) []), [.markReady 1 64],
  .lookup 1 5 :: List.replicate 3 (.next 1 (some 0) []),
  .insert 0 6 8 :: List.replicate 3 (.next 0 (some 256) []), [.release 1 64, .next 1 (some 0) []],
  List.replicate 2 (.next 0 (some 256) [])]

theorem locking_linearizable_replacing : ∃ st log pts c, Locking.Served 128 1 st log pts ∧
    effects 0 pts = ([(.insert 5 128 64, ⟨none, []⟩), (.publish 64, ⟨none, []⟩),
      (.lookup 5, ⟨some 64, []⟩), (.insert 6 128 256, ⟨none, [64]⟩)], []) ∧
    FillingCache.Explains 128 (effects 0 pts).1 c ∧
    (st.table.part 0).lru.map (view st.table.mem) = c.entries ∧
    returnedBy 0 log = [128, 320] ∧ results 1 pts = returnedBy 1 log ++ (st.pc 1).owed := by
  have hval : (Runs.runNoted Locking.step (fun _ log a => a.Ok log ∧ a.Served) Locking.points replaceRun
      (.init (createHashTable 128 1 .lru)) [] []).map
        (fun r => (effects 0 r.2.2,
          decide (returnedBy 0 r.2.1 = [128, 320] ∧ r.2.1.length = 9 ∧ r.1.lock 0 = none)))
      = some (([(.insert 5 128 64, ⟨none, []⟩), (.publish 64, ⟨none, []⟩),
        (.lookup 5, ⟨some 64, []⟩), (.insert 6 128 256, ⟨none, [64]⟩)], []), true) := by
    decide +kernel
  obtain ⟨⟨st, log, pts⟩, hrun, heq⟩ := Option.map_eq_some_iff.mp hval
  have hserved : Locking.Served 128 1 st log pts := Runs.Noted.start.run hrun
  obtain ⟨heffects, heq⟩ := Prod.mk.inj heq
  obtain ⟨hreturned, hlen, hfree⟩ := of_decide_eq_true heq
  simp only at heffects hreturned hlen hfree
  obtain ⟨hcaches, hresults⟩ := locking_linearizable Nat.one_pos (by decide) hserved (by rw [hlen]; decide)
  obtain ⟨c, hc, hentries⟩ := hcaches 0 Nat.one_pos
  exact ⟨st, log, pts, c, hserved, heffects, hc, (hentries hfree).2, hreturned, hresults 1⟩

end SmpHashTable
