import SmpHashTable.AtomicRuns
import SmpHashTable.References

/-!
# What is left when the table is destroyed

`destroy_hash_table` releases every element of every partition once, with `atomic_release_value_` in all
designs.  So an element is freed if the table has the last reference to it, and stays allocated as long as
a client has not given back its handle.  Elements that were evicted or overwritten before are not in the
table any more: whoever gives back their last handle has freed them.
-/

namespace SmpHashTable

/-! ### Releasing a set of elements -/

/-- The elements of `gone` have been released once, and no others. -/
structure Released (gone : ℕ → Prop) (m m' : Mem) : Prop where
  keep : ∀ a, (m'.elem a).key = (m.elem a).key ∧ (m'.elem a).size = (m.elem a).size
  elem : ∀ a, ¬ gone a → m'.elem a = m.elem a
  live : ∀ a, m'.Live a ↔ m.Live a ∧ (gone a → sub64 (m.elem a).refCount 1 ≠ 0)

theorem Released.refl (m : Mem) : Released (fun _ => False) m m :=
  ⟨fun _ => ⟨rfl, rfl⟩, fun _ _ => rfl, fun _ => ⟨fun h => ⟨h, False.elim⟩, fun h => h.1⟩⟩

/-- One release after the other. -/
theorem Released.trans {P Q R : ℕ → Prop} {m m₁ m₂ : Mem} (h : Released P m m₁) (h' : Released Q m₁ m₂)
    (hdis : ∀ a, P a → ¬ Q a) (hR : ∀ a, R a ↔ P a ∨ Q a) : Released R m m₂ := by
  refine ⟨fun a => ⟨(h'.keep a).1.trans (h.keep a).1, (h'.keep a).2.trans (h.keep a).2⟩, ?_, ?_⟩
  · intro a ha
    rw [hR, not_or] at ha
    rw [h'.elem a ha.2, h.elem a ha.1]
  · intro a
    rw [h'.live, h.live, hR]
    by_cases hP : P a
    · have hQ := hdis a hP
      exact ⟨fun hl => ⟨hl.1.1, fun _ => hl.1.2 hP⟩,
        fun hl => ⟨⟨hl.1, fun _ => hl.2 (Or.inl hP)⟩, fun hq => absurd hq hQ⟩⟩
    · rw [h.elem a hP]
      exact ⟨fun hl => ⟨hl.1.1, fun ho => hl.2 (ho.resolve_left hP)⟩,
        fun hl => ⟨⟨hl.1, fun hp => absurd hp hP⟩, fun hq => hl.2 (Or.inr hq)⟩⟩

/-- `atomic_release_value_`. -/
theorem atomicRelease_released {m m' : Mem} {e : ℕ} (h : atomicRelease.run m e = .ok m') :
    Released (· = e) m m' := by
  obtain ⟨hlive, -, hblocks⟩ := storeRefCount_ok h
  have hframe := atomicRelease.frame h
  refine ⟨fun a => ⟨hframe.key a, hframe.size a⟩, hframe.elem_of_ne, ?_⟩
  intro a
  by_cases ha : a = e
  · subst ha
    rw [and_iff_right hlive]
    unfold Mem.Live
    rw [hblocks]
    split
    · next hzero => simp [hzero]
    · next hzero => exact ⟨fun _ _ => hzero, fun _ => hlive⟩
  · rw [hframe.live_of_ne ha]
    exact ⟨fun hl => ⟨hl, fun heq => absurd heq ha⟩, fun hl => hl.1⟩

/-- The loops over the chains of a partition. -/
theorem destroyChains_released {es : List ℕ} (hnd : es.Nodup) {m : Mem} (hlive : ∀ e ∈ es, m.Live e)
    {dbg : ℕ} (hdbg : dbg < 2 ^ 64) :
    ∃ m', destroyChains atomicRelease es dbg m
      = .ok ((dbg + (es.map fun e => (m.elem e).size).sum) % 2 ^ 64, m') ∧ Released (· ∈ es) m m' := by
  induction es generalizing m dbg with
  | nil =>
      refine ⟨m, ?_, (Released.refl m).trans (Released.refl m) (fun _ h => h.elim) fun a => ?_⟩
      · rw [destroyChains, List.map_nil, List.sum_nil, Nat.add_zero, Nat.mod_eq_of_lt hdbg]
      · simp
  | cons e es ih =>
      obtain ⟨hnot, hnd'⟩ := List.nodup_cons.mp hnd
      obtain ⟨m₁, hrel⟩ := atomicRelease.total (hlive e List.mem_cons_self)
      have hone := atomicRelease_released hrel
      have hlive₁ : ∀ a ∈ es, m₁.Live a := by
        intro a ha
        refine (hone.live a).mpr ⟨hlive a (List.mem_cons_of_mem e ha), ?_⟩
        rintro rfl
        exact absurd ha hnot
      obtain ⟨m', hrun, hrest⟩ := ih hnd' hlive₁ (Nat.mod_lt (dbg + (m.elem e).size) (by decide))
      have hsizes : (es.map fun a => (m₁.elem a).size) = es.map fun a => (m.elem a).size :=
        List.map_congr_left fun a _ => (hone.keep a).2
      refine ⟨m', ?_, hone.trans hrest (fun a ha hin => hnot (ha ▸ hin)) fun a => List.mem_cons⟩
      rw [destroyChains, hrel, Outcome.ok_bind, add64, hrun, hsizes, List.map_cons, List.sum_cons,
        Nat.mod_add_mod, Nat.add_assoc]

/-- `destroy_hash_partition` passes its assertion. -/
theorem destroyHashPartition_released {p : Partition} {m : Mem} (h : Shape p m 0) :
    ∃ m', destroyHashPartition p m atomicRelease = .ok m' ∧ Released (· ∈ p.elems) m m' := by
  obtain ⟨m', hrun, hrel⟩ := destroyChains_released h.elems_nodup h.live (by decide : 0 < 2 ^ 64)
  refine ⟨m', ?_, hrel⟩
  rw [destroyHashPartition, hrun, Outcome.ok_bind]
  refine if_pos ?_
  rw [h.size_mod, Nat.add_zero, Nat.zero_add]

/-- **`destroy_hash_table`** releases every element of the table once. -/
theorem destroyHashTable_released {t : Table} {ss : List ℕ} (hnd : ss.Nodup)
    (hdis : ∀ s ∈ ss, ∀ s' ∈ ss, s ≠ s' → ∀ a ∈ (t.part s).elems, a ∉ (t.part s').elems) {m : Mem}
    (hshape : ∀ s ∈ ss, Shape (t.part s) m 0) :
    ∃ m', destroyHashTable atomicRelease t ss m = .ok m' ∧
      Released (fun a => ∃ s ∈ ss, a ∈ (t.part s).elems) m m' := by
  induction ss generalizing m with
  | nil =>
      refine ⟨m, rfl, (Released.refl m).trans (Released.refl m) (fun _ h => h.elim) fun a => ?_⟩
      simp
  | cons s ss ih =>
      obtain ⟨hnot, hnd'⟩ := List.nodup_cons.mp hnd
      obtain ⟨m₁, hrun, hone⟩ := destroyHashPartition_released (hshape s List.mem_cons_self)
      have hout : ∀ s' ∈ ss, ∀ a ∈ (t.part s').elems, a ∉ (t.part s).elems := by
        intro s' hs'
        have hne : s' ≠ s := fun heq => hnot (heq ▸ hs')
        exact hdis s' (List.mem_cons_of_mem s hs') s List.mem_cons_self hne
      have hshape₁ : ∀ s' ∈ ss, Shape (t.part s') m₁ 0 := by
        intro s' hs'
        have hold := hshape s' (List.mem_cons_of_mem s hs')
        refine hold.congr_mem (fun a _ => (hone.keep a).1) (fun a _ => (hone.keep a).2) fun a ha => ?_
        exact (hone.live a).mpr ⟨hold.live a ha, fun hin => absurd hin (hout s' hs' a ha)⟩
      obtain ⟨m', hrest, hrel⟩ := ih hnd' (fun s₁ h₁ s₂ h₂ => hdis s₁ (List.mem_cons_of_mem s h₁) s₂
        (List.mem_cons_of_mem s h₂)) hshape₁
      refine ⟨m', by rw [destroyHashTable, hrun, Outcome.ok_bind, hrest], hone.trans hrel ?_ fun a => ?_⟩
      · rintro a ha ⟨s', hs', ha'⟩
        exact hout s' hs' a ha' ha
      · exact List.exists_mem_cons_iff ..

/-! ### Whole runs -/

/-- The last reference to an element is the one that brings its count to zero. -/
theorem RefOk.last {pend : Prop} {refs rc : ℕ} (h : RefOk pend refs rc) (hpos : 0 < refs) :
    sub64 rc 1 ≠ 0 ↔ 1 < refs := by
  unfold RefOk DATA_READY_MASK at h
  unfold sub64
  omega

/-- **The message-passing table leaves nothing behind**: whenever the table is destroyed, in a run in which
handles are given back once, the assertion of `destroy_hash_partition` holds for every partition, and the
elements that are still allocated afterwards are those that some client has a handle of, be it in a response
it has not read, in its hands, or in a message the server has not executed. -/
theorem disciplined_teardown {maxSize nservers : ℕ} {evictalgo : Evictalgo} {st : Sys} {log : List Event}
    (h : Sys.Disciplined (createHashTable maxSize nservers evictalgo) st log) :
    ∃ f, (Fifo.init (createHashTable maxSize nservers evictalgo)).replay log = some f ∧
      ∃ m, destroyHashTable atomicRelease st.table (List.range st.table.nservers) st.table.mem = .ok m ∧
        ∀ e, m.Live e ↔ 0 < f.due st.nclients (.release e) + f.due st.nclients (.markReady e) := by
  obtain ⟨f, hlog, hcoup, hset⟩ := disciplined_settled h
  have hrefs := hset.refs
  rw [hcoup.table] at hrefs
  have hdis : ∀ s ∈ List.range st.table.nservers, ∀ s' ∈ List.range st.table.nservers, s ≠ s' →
      ∀ a ∈ (st.table.part s).elems, a ∉ (st.table.part s').elems := by
    intro s hs s' hs' hne a ha ha'
    exact hne ((hrefs.home s (List.mem_range.mp hs) a ha).symm.trans
      (hrefs.home s' (List.mem_range.mp hs') a ha'))
  obtain ⟨m, hrun, hrel⟩ := destroyHashTable_released List.nodup_range hdis fun s hs =>
    hrefs.shape s (List.mem_range.mp hs)
  refine ⟨f, hlog, m, hrun, fun e => ?_⟩
  rw [hrel.live, hrefs.counted.live_iff]
  change 0 < st.table.refs (f.due st.nclients) e ∧ (st.table.Has e → _) ↔ _
  by_cases hhas : st.table.Has e
  · have hsum : st.table.refs (f.due st.nclients) e
        = 1 + f.due st.nclients (.release e) + f.due st.nclients (.markReady e) := by
      rw [Table.refs, if_pos hhas]
    have hlast := (hrefs.counted.ok e (by omega)).last (by omega)
    rw [forall_prop_of_true hhas, hlast]
    omega
  · have hsum : st.table.refs (f.due st.nclients) e
        = f.due st.nclients (.release e) + f.due st.nclients (.markReady e) := by
      rw [Table.refs, if_neg hhas, Nat.zero_add]
    rw [hsum]
    exact and_iff_left fun hin => absurd hin hhas

theorem disciplined_teardown_release : ∃ st log m,
    Sys.Disciplined (createHashTable 1024 1 .lru) st log ∧
      destroyHashTable atomicRelease st.table (List.range st.table.nservers) st.table.mem = .ok m ∧
      m.Live 64 := by
  have hval : (Runs.run Sys.step
      (fun st log a => a.Ok st ∧ a.Returns (createHashTable 1024 1 .lru) log) releaseRun
      (Sys.init (createHashTable 1024 1 .lru)) []).map
        (fun r => ((Fifo.init (createHashTable 1024 1 .lru)).replay r.2).map
          (fun f => f.due r.1.nclients (.release 64)))
      = some (some 1) := by
    decide +kernel
  obtain ⟨⟨st, log⟩, hrun, heq⟩ := Option.map_eq_some_iff.mp hval
  have hreach : Sys.Disciplined (createHashTable 1024 1 .lru) st log := Runs.Reach.start.run hrun
  obtain ⟨f, hlog, m, hdestroy, hlive⟩ := disciplined_teardown hreach
  rw [hlog, Option.map_some, Option.some.injEq] at heq
  refine ⟨st, log, m, hreach, hdestroy, (hlive 64).mpr ?_⟩
  rw [heq]
  exact Nat.lt_add_right _ Nat.one_pos

/-- **The locking table leaves nothing behind**: when no call is under way, the elements that are still
allocated after `destroy_hash_table` are those that were looked up and not released, and those that were
inserted and not marked ready. -/
theorem locking_teardown {maxSize nservers : ℕ} {evictalgo : Evictalgo} (hn : 0 < nservers) {st : Locking}
    {log : List LockingEvent} (h : Locking.Reach maxSize nservers evictalgo st log)
    (hidle : ∀ t, st.pc t = .idle) :
    ∃ m, destroyHashTable atomicRelease st.table (List.range st.table.nservers) st.table.mem = .ok m ∧
      ∀ e, m.Live e ↔ 0 < handles log e ∨ 0 < filling log e := by
  obtain ⟨hinv, -⟩ := Locking.Reach.inv hn h
  have hfree : ∀ s, st.lock s = none := by
    intro s
    rw [Option.eq_none_iff_forall_ne_some]
    intro t hlock
    have hholds := (hinv.bodies.holding t s).mpr hlock
    rw [hidle t] at hholds
    cases hholds
  have hdis : ∀ s ∈ List.range st.table.nservers, ∀ s' ∈ List.range st.table.nservers, s ≠ s' →
      ∀ a ∈ (st.table.part s).elems, a ∉ (st.table.part s').elems := by
    intro s hs s' hs' hne a ha ha'
    exact hne ((hinv.bodies.home s (List.mem_range.mp hs) a ha).symm.trans
      (hinv.bodies.home s' (List.mem_range.mp hs') a ha'))
  obtain ⟨m, hrun, hrel⟩ := destroyHashTable_released List.nodup_range hdis fun s hs => by
    have hshape := hinv.bodies.shape s (List.mem_range.mp hs)
    rw [Locking.charged, hfree s] at hshape
    exact hshape
  refine ⟨m, hrun, fun e => ?_⟩
  have hacc := hinv.counts.account e
  have hnot : ¬ st.Freeing e := by
    rintro ⟨t, ret, hpc⟩
    rw [hidle t] at hpc
    cases hpc
  have hlive : st.table.mem.Live e ↔ 0 < st.refs log e ∨ 0 < filling log e := by
    rw [hacc.live_iff, or_iff_left hnot]
  rw [hrel.live, hlive]
  change _ ∧ (st.table.Has e → _) ↔ _
  have hrefs : st.refs log e = (if st.table.Has e then 1 else 0) + handles log e := rfl
  by_cases hhas : st.table.Has e
  · rw [if_pos hhas] at hrefs
    have hword := hacc.word_eq (hlive.mpr (by omega))
    have hfilling := hacc.filling_le
    have hlow := hacc.low
    rw [forall_prop_of_true hhas, hword, sub64]
    unfold DATA_READY_MASK at hlow ⊢
    omega
  · rw [if_neg hhas, Nat.zero_add] at hrefs
    rw [hrefs]
    exact and_iff_left fun hin => absurd hin hhas

/-- A thread that takes no step stands where it stood. -/
theorem Locking.run_pc {acts : List LockingAct} {st st' : Locking} {log log' : List LockingEvent} {t : ℕ}
    (hrun : Runs.run Locking.step (fun _ log a => a.Ok log) acts st log = some (st', log'))
    (hother : ∀ a ∈ acts, a.thread ≠ t) : st'.pc t = st.pc t := by
  induction acts generalizing st log with
  | nil =>
      cases hrun
      rfl
  | cons a acts ih =>
      rw [Runs.run] at hrun
      split at hrun
      · split at hrun
        · next st₁ evs hstep =>
          obtain ⟨pc, hpc⟩ := (Locking.step_frame hstep).own
          rw [ih hrun fun a' ha' => hother a' (List.mem_cons_of_mem a ha'), hpc,
            Function.update_of_ne (hother a List.mem_cons_self).symm]
        · cases hrun
      · cases hrun

/-- In the run that overwrites an element under a lookup, the old element is freed by the last release and
the new one with the table. -/
theorem locking_teardown_overwrite : ∃ st log m, Locking.Reach 1024 1 .lru st log ∧
    destroyHashTable atomicRelease st.table (List.range st.table.nservers) st.table.mem = .ok m ∧
    st.table.mem.Live 128 ∧ ¬ m.Live 128 := by
  have hval : (Runs.run Locking.step (fun _ log a => a.Ok log) overwriteRun
      (.init (createHashTable 1024 1 .lru)) []).map (fun r => decide (r.1.pc 0 = .idle ∧ r.1.pc 1 = .idle ∧
        r.1.table.mem.Live 128 ∧ handles r.2 128 = 0 ∧ filling r.2 128 = 0)) = some true := by
    decide +kernel
  obtain ⟨⟨st, log⟩, hrun, hgood⟩ := Option.map_eq_some_iff.mp hval
  obtain ⟨h0, h1, hlive, hhandles, hfilling⟩ := of_decide_eq_true hgood
  have hreach : Locking.Reach 1024 1 .lru st log := Runs.Reach.start.run hrun
  have hidle : ∀ t, st.pc t = .idle := by
    intro t
    by_cases ht0 : t = 0
    · exact ht0 ▸ h0
    by_cases ht1 : t = 1
    · exact ht1 ▸ h1
    refine Locking.run_pc hrun fun a ha heq => ?_
    have hthread : a.thread = 0 ∨ a.thread = 1 :=
      (by decide : ∀ a ∈ overwriteRun, a.thread = 0 ∨ a.thread = 1) a ha
    omega
  obtain ⟨m, hdestroy, hleft⟩ := locking_teardown Nat.one_pos hreach hidle
  refine ⟨st, log, m, hreach, hdestroy, hlive, fun hm => ?_⟩
  have hdue := (hleft 128).mp hm
  simp only at hhandles hfilling
  omega

end SmpHashTable
