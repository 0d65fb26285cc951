import SmpHashTable.PartitionInv

/-!
# The partitioned table

A hash table is one partition per server over one memory.  The representation invariant of a
partition extends to the table once the partitions are known to hold different elements: a release
in one partition then cannot disturb another, and a fresh block is fresh for all of them.
-/

namespace SmpHashTable

/-- The partitions of `struct hash_table` and the memory of their elements. -/
structure Table where
  nservers : ℕ
  part : ℕ → Partition
  mem : Mem

/-- `hash_get_server`. -/
def hashGetServer (nservers key : ℕ) : ℕ := key % nservers

theorem hashGetServer_lt {n : ℕ} (hn : 0 < n) (key : ℕ) : hashGetServer n key < n := Nat.mod_lt key hn

/-- A table whose partitions all have `nhash` empty chains. -/
def emptyTable (nhash maxSize nservers : ℕ) (evictalgo : Evictalgo) : Table :=
  { nservers, part := fun _ => emptyPartition nhash (maxSize / nservers) evictalgo, mem := Mem.empty }

/-- The partitions made by `create_hash_table`. -/
def createHashTable (maxSize nservers : ℕ) (evictalgo : Evictalgo) : Table :=
  { nservers, part := fun _ => initHashPartition (maxSize / nservers) nservers evictalgo
    mem := Mem.empty }

/-- `stats_get_mem`: the bytes used and the limit, summed over the partitions. -/
def statsGetMem (t : Table) : ℕ × ℕ :=
  (List.range t.nservers).foldl
    (fun acc s => (add64 acc.1 (t.part s).size, add64 acc.2 (t.part s).maxSize)) (0, 0)

/-- The loop of `destroy_hash_table` over the partitions. -/
def destroyHashTable (release : ReleaseValueF) (t : Table) : List ℕ → Mem → Except Stop Mem
  | [], m => .ok m
  | s :: ss, m => do
      let m' ← destroyHashPartition (t.part s) m release
      destroyHashTable release t ss m'

def Table.setPart (t : Table) (s : ℕ) (p : Partition) (m : Mem) : Table :=
  { t with part := Function.update t.part s p, mem := m }

/-- A call of `hash_lookup` or `hash_insert` on partition `s`. -/
inductive TableCall
  | lookup (s key : ℕ)
  | insert (s key : ℕ) (size : ℤ) (o : Oracle)

/-- The table after a call, and the removals it made. -/
def TableCall.run (release : ReleaseValueF) (t : Table) :
    TableCall → Except Stop (Table × List Removal)
  | .lookup s key => .ok (t.setPart s (hashLookup (t.part s) t.mem key).2 t.mem, [])
  | .insert s key size o => do
      let r ← hashInsert (t.part s) t.mem key size release o
      return (t.setPart s r.p r.m, r.removed)

/-- A sequence of calls, with all removals made. -/
def runCalls (release : ReleaseValueF) (t : Table) : List TableCall → Except Stop (Table × List Removal)
  | [] => .ok (t, [])
  | c :: cs => do
      let (t, rs) ← c.run release t
      let (t, rs') ← runCalls release t cs
      return (t, rs ++ rs')

/-- The call names an existing partition and a size the claim allows. -/
def TableCall.Ok (nservers : ℕ) : TableCall → Prop
  | .lookup s _ => s < nservers
  | .insert s _ size _ => s < nservers ∧ 0 ≤ size ∧ size < 2 ^ 31

/-- Every partition is well formed and within its limit, and no two share an element. -/
structure TableRep (t : Table) : Prop where
  rep : ∀ s < t.nservers, Rep (t.part s) t.mem 0
  fits : ∀ s < t.nservers, (t.part s).size ≤ (t.part s).maxSize
  disjoint : ∀ s < t.nservers, ∀ s' < t.nservers, s ≠ s' →
    ∀ a ∈ (t.part s).elems, a ∉ (t.part s').elems

/-! ### The size of the bucket array -/

theorem initNhash_ge (maxSize nservers : ℕ) (h : 0 < nservers) : 9 ≤ initNhash maxSize nservers := by
  have hmax : 10 ≤ max 10 (intOfWord (maxSize / BUCKET_LOAD)) := by
    unfold max
    split <;> omega
  have hpos : (0 : ℤ) < nservers := by omega
  -- the ceiling times the divisor is at least the dividend
  have hceil : -(max 10 (intOfWord (maxSize / BUCKET_LOAD))) / (nservers : ℤ) * nservers
      ≤ -(max 10 (intOfWord (maxSize / BUCKET_LOAD))) := Int.ediv_mul_le _ hpos.ne'
  unfold initNhash
  rw [Int.neg_mul]
  omega

theorem createHashTable_eq (maxSize nservers : ℕ) (evictalgo : Evictalgo) :
    createHashTable maxSize nservers evictalgo =
      emptyTable (initNhash (maxSize / nservers) nservers).toNat maxSize nservers evictalgo := rfl

theorem emptyTable_rep {nhash maxSize nservers : ℕ} {evictalgo : Evictalgo} (hn : 0 < nhash) :
    TableRep (emptyTable nhash maxSize nservers evictalgo) := by
  have helems : (emptyPartition nhash (maxSize / nservers) evictalgo).elems = [] :=
    Lists.cat_const_nil nhash
  refine ⟨fun s _ => emptyPartition_rep Mem.empty hn, fun s _ => Nat.zero_le _, ?_⟩
  intro s _ s' _ _ a ha
  have ha' : a ∈ (emptyPartition nhash (maxSize / nservers) evictalgo).elems := ha
  rw [helems] at ha'
  cases ha'

/-! ### One call -/

section

variable {release : ReleaseValueF} {t t' : Table}

/-- Replacing the partition of one server, when the memory still serves the others. -/
theorem TableRep.setPart (h : TableRep t) {s : ℕ} {p : Partition} {m : Mem} (hrep : Rep p m 0)
    (hfits : p.size ≤ p.maxSize)
    (hother : ∀ s' < t.nservers, s' ≠ s → Rep (t.part s') m 0)
    (hdis : ∀ s' < t.nservers, s' ≠ s → ∀ a ∈ p.elems, a ∉ (t.part s').elems) :
    TableRep (t.setPart s p m) := by
  refine ⟨?_, ?_, ?_⟩
  · intro s' hs'
    by_cases heq : s' = s
    · subst heq
      simpa [Table.setPart] using hrep
    · simpa [Table.setPart, heq] using hother s' hs' heq
  · intro s' hs'
    by_cases heq : s' = s
    · subst heq
      simpa [Table.setPart] using hfits
    · simpa [Table.setPart, heq] using h.fits s' hs'
  · intro s₁ hs₁ s₂ hs₂ hne a ha ha'
    simp only [Table.setPart, Function.update_apply] at ha ha'
    by_cases h₁ : s₁ = s
    · have h₂ : s₂ ≠ s := fun heq => hne (h₁.trans heq.symm)
      rw [if_pos h₁] at ha
      rw [if_neg h₂] at ha'
      exact hdis s₂ hs₂ h₂ a ha ha'
    · rw [if_neg h₁] at ha
      by_cases h₂ : s₂ = s
      · rw [if_pos h₂] at ha'
        exact hdis s₁ hs₁ h₁ a ha' ha
      · rw [if_neg h₂] at ha'
        exact h.disjoint s₁ hs₁ s₂ hs₂ hne a ha ha'

theorem TableRep.lookup (h : TableRep t) {s : ℕ} (hs : s < t.nservers) (key : ℕ) :
    TableRep (t.setPart s (hashLookup (t.part s) t.mem key).2 t.mem) := by
  obtain ⟨-, -, hsize, hmax, -⟩ := hashLookup_table (t.part s) t.mem key
  refine h.setPart (hashLookup_rep (h.rep s hs) key) ?_ (fun s' hs' _ => h.rep s' hs') ?_
  · rw [hsize, hmax]
    exact h.fits s hs
  · intro s' hs' hne a ha
    rw [hashLookup_elems] at ha
    exact h.disjoint s hs s' hs' hne.symm a ha

/-- An element of another partition is neither removed by an insert nor the new element. -/
theorem TableRep.insert_other (h : TableRep t) {s s' : ℕ} (hs : s < t.nservers)
    (hs' : s' < t.nservers) (hne : s' ≠ s) {key esize : ℕ} {r : Inserted} {rest : List ℕ}
    (hpost : InsertPost (t.part s) t.mem key esize r rest) {a : ℕ} (ha : a ∈ (t.part s').elems) :
    a ∉ r.removed.map Removal.e ∧ a ≠ r.e :=
  hpost.other ((h.rep s' hs').live a ha) (h.disjoint s' hs' s hs hne a ha)

theorem TableRep.insert (h : TableRep t) {s key esize : ℕ} (hs : s < t.nservers) {r : Inserted}
    {rest : List ℕ} (hrep : Rep r.p r.m 0)
    (hpost : InsertPost (t.part s) t.mem key esize r rest) : TableRep (t.setPart s r.p r.m) := by
  refine h.setPart hrep hpost.fits ?_ ?_
  · intro s' hs' hne
    have hout := fun a ha => h.insert_other hs hs' hne hpost (a := a) ha
    refine (h.rep s' hs').congr_mem ?_ ?_ ?_
    · intro a ha
      rw [hpost.elem_of_notMem a (hout a ha).1 (hout a ha).2]
    · intro a ha
      rw [hpost.elem_of_notMem a (hout a ha).1 (hout a ha).2]
    · intro a ha
      exact (hpost.live_of_notMem a (hout a ha).1 (hout a ha).2).mpr ((h.rep s' hs').live a ha)
  · intro s' hs' hne a ha ha'
    rcases List.mem_cons.mp (hpost.after.mem_iff.mp ha) with rfl | hrest
    · exact (h.insert_other hs hs' hne hpost ha').2 rfl
    · have hmem : a ∈ (t.part s).elems := hpost.before.mem_iff.mpr (List.mem_append_right _ hrest)
      exact h.disjoint s hs s' hs' hne.symm a hmem ha'

/-- The limits of the partitions are fixed at `limit`. -/
def Table.Limit (t : Table) (limit : ℕ) : Prop := ∀ s < t.nservers, (t.part s).maxSize = limit

theorem TableRep.charge_lt (h : TableRep t) {s limit : ℕ} (hs : s < t.nservers)
    (hlim : t.Limit limit) (hlimit : limit < 2 ^ 63) {size : ℤ} (h0 : 0 ≤ size)
    (hsize : size < 2 ^ 31) : (t.part s).size + elemSize size < 2 ^ 64 := by
  have := h.fits s hs
  rw [hlim s hs] at this
  have := (elemSize_bounds h0 hsize).2
  omega

/-- **One call keeps the invariant**, and no subtraction of it wraps. -/
theorem TableCall.run_rep {limit : ℕ} (hlimit : limit < 2 ^ 63) (h : TableRep t)
    (hlim : t.Limit limit) {c : TableCall} (hc : c.Ok t.nservers) {rs : List Removal}
    (hrun : c.run release t = .ok (t', rs)) :
    TableRep t' ∧ t'.Limit limit ∧ t'.nservers = t.nservers ∧
      ∀ r ∈ rs, r.elemSize ≤ r.sizeBefore := by
  cases c with
  | lookup s key =>
      simp only [TableCall.run, Except.ok.injEq, Prod.mk.injEq] at hrun
      obtain ⟨rfl, rfl⟩ := hrun
      refine ⟨h.lookup hc key, ?_, rfl, by simp⟩
      intro s' hs'
      by_cases heq : s' = s
      · subst heq
        simpa [Table.setPart, (hashLookup_table _ t.mem key).2.2.2.1] using hlim s' hs'
      · simpa [Table.setPart, heq] using hlim s' hs'
  | insert s key size o =>
      obtain ⟨hs, h0, hsz⟩ := hc
      obtain ⟨r, hins, hrun⟩ := Outcome.bind_ok.mp hrun
      simp only [Outcome.pure_ok, Except.ok.injEq, Prod.mk.injEq] at hrun
      obtain ⟨rfl, rfl⟩ := hrun
      obtain ⟨rest, hpost⟩ := hashInsert_post (h.rep s hs).toShape hins
      obtain ⟨hrep, hwrap⟩ :=
        hashInsert_rep (h.rep s hs) (h.charge_lt hs hlim hlimit h0 hsz) hins
      refine ⟨h.insert hs hrep hpost, ?_, rfl, hwrap⟩
      intro s' hs'
      by_cases heq : s' = s
      · subst heq
        simpa [Table.setPart, hpost.maxSize_eq] using hlim s' hs'
      · simpa [Table.setPart, heq] using hlim s' hs'

/-- **A run of calls keeps the invariant.** -/
theorem runCalls_rep {limit : ℕ} (hlimit : limit < 2 ^ 63) (h : TableRep t)
    (hlim : t.Limit limit) {calls : List TableCall} (hcalls : ∀ c ∈ calls, c.Ok t.nservers)
    {rs : List Removal} (hrun : runCalls release t calls = .ok (t', rs)) :
    TableRep t' ∧ t'.Limit limit ∧ t'.nservers = t.nservers ∧
      ∀ r ∈ rs, r.elemSize ≤ r.sizeBefore := by
  induction calls generalizing t rs with
  | nil =>
      simp only [runCalls, Except.ok.injEq, Prod.mk.injEq] at hrun
      obtain ⟨rfl, rfl⟩ := hrun
      exact ⟨h, hlim, rfl, by simp⟩
  | cons c cs ih =>
      obtain ⟨⟨t₁, rs₁⟩, hone, hrun⟩ := Outcome.bind_ok.mp hrun
      obtain ⟨⟨t₂, rs₂⟩, hrest, hrun⟩ := Outcome.bind_ok.mp hrun
      simp only [Outcome.pure_ok, Except.ok.injEq, Prod.mk.injEq] at hrun
      obtain ⟨rfl, rfl⟩ := hrun
      obtain ⟨h₁, hlim₁, hn₁, hw₁⟩ :=
        TableCall.run_rep hlimit h hlim (hcalls c List.mem_cons_self) hone
      obtain ⟨h₂, hlim₂, hn₂, hw₂⟩ := ih h₁ hlim₁
        (fun c' hc' => hn₁ ▸ hcalls c' (List.mem_cons_of_mem c hc')) hrest
      refine ⟨h₂, hlim₂, hn₂.trans hn₁, ?_⟩
      intro r hr
      rcases List.mem_append.mp hr with hr | hr
      · exact hw₁ r hr
      · exact hw₂ r hr

end

/-! ### Destruction and the memory statistics -/

/-- The loop over the chains adds up the sizes and leaves other elements alone. -/
theorem destroyChains_ok (release : ReleaseValueF) (es : List ℕ) (m : Mem) (dbg : ℕ)
    (hnd : es.Nodup) (hlive : ∀ e ∈ es, m.Live e)
    (hsum : dbg + (es.map fun e => (m.elem e).size).sum < 2 ^ 64) :
    ∃ m', destroyChains release es dbg m = .ok (dbg + (es.map fun e => (m.elem e).size).sum, m') ∧
      (∀ a, (m'.elem a).key = (m.elem a).key) ∧ (∀ a, (m'.elem a).size = (m.elem a).size) ∧
      ∀ a, a ∉ es → (m'.Live a ↔ m.Live a) := by
  induction es generalizing m dbg with
  | nil => exact ⟨m, by simp [destroyChains], fun _ => rfl, fun _ => rfl, fun _ _ => Iff.rfl⟩
  | cons e es ih =>
      obtain ⟨m₁, hrel⟩ := release.total (hlive e List.mem_cons_self)
      have hf := release.frame hrel
      obtain ⟨hnot, hnd'⟩ := List.nodup_cons.mp hnd
      rw [List.map_cons, List.sum_cons] at hsum
      have hsizes : (es.map fun a => (m₁.elem a).size) = es.map fun a => (m.elem a).size :=
        List.map_congr_left fun a _ => hf.size a
      have hlive₁ : ∀ a ∈ es, m₁.Live a := by
        intro a ha
        have hne : a ≠ e := fun heq => hnot (heq ▸ ha)
        exact (hf.live_of_ne hne).mpr (hlive a (List.mem_cons_of_mem e ha))
      obtain ⟨m', hrun, hk, hs, hl⟩ := ih m₁ (dbg + (m.elem e).size) hnd' hlive₁ (by
        rw [hsizes]
        omega)
      refine ⟨m', ?_, fun a => (hk a).trans (hf.key a), fun a => (hs a).trans (hf.size a), ?_⟩
      · rw [destroyChains, hrel, Outcome.ok_bind, add64_eq (by omega), hrun, hsizes, List.map_cons,
          List.sum_cons, Nat.add_assoc]
      · intro a ha
        rw [List.mem_cons, not_or] at ha
        exact (hl a ha.2).trans (hf.live_of_ne ha.1)

/-- `destroy_hash_partition` passes its assertion and leaves the elements of others live. -/
theorem destroyHashPartition_ok (release : ReleaseValueF) {p : Partition} {m : Mem}
    (h : Rep p m 0) : ∃ m', destroyHashPartition p m release = .ok m' ∧
      (∀ a, (m'.elem a).key = (m.elem a).key) ∧ (∀ a, (m'.elem a).size = (m.elem a).size) ∧
      ∀ a, a ∉ p.elems → (m'.Live a ↔ m.Live a) := by
  have hsize := h.size_eq
  obtain ⟨m', hrun, hk, hs, hl⟩ := destroyChains_ok release p.elems m 0 h.elems_nodup h.live
    (by have := h.size_lt; omega)
  refine ⟨m', ?_, hk, hs, hl⟩
  rw [destroyHashPartition, hrun, Outcome.ok_bind]
  exact if_pos (by omega)

theorem destroyHashTable_ok (release : ReleaseValueF) {t : Table}
    (hdis : ∀ s < t.nservers, ∀ s' < t.nservers, s ≠ s' →
      ∀ a ∈ (t.part s).elems, a ∉ (t.part s').elems)
    (ss : List ℕ) (hnd : ss.Nodup) (hss : ∀ s ∈ ss, s < t.nservers) (m : Mem)
    (hrep : ∀ s ∈ ss, Rep (t.part s) m 0) : ∃ m', destroyHashTable release t ss m = .ok m' := by
  induction ss generalizing m with
  | nil => exact ⟨m, rfl⟩
  | cons s ss ih =>
      obtain ⟨hnot, hnd'⟩ := List.nodup_cons.mp hnd
      obtain ⟨m₁, hrun, hk, hs, hl⟩ := destroyHashPartition_ok release (hrep s List.mem_cons_self)
      have hrep₁ : ∀ s' ∈ ss, Rep (t.part s') m₁ 0 := by
        intro s' hs'
        have hne : s' ≠ s := fun heq => hnot (heq ▸ hs')
        have hr' := hrep s' (List.mem_cons_of_mem s hs')
        refine hr'.congr_mem (fun a _ => hk a) (fun a _ => hs a) ?_
        intro a ha
        refine (hl a ?_).mpr (hr'.live a ha)
        exact hdis s' (hss s' (List.mem_cons_of_mem s hs')) s (hss s List.mem_cons_self) hne a ha
      obtain ⟨m', hm'⟩ := ih hnd' (fun s' hs' => hss s' (List.mem_cons_of_mem s hs')) m₁ hrep₁
      exact ⟨m', by rw [destroyHashTable, hrun, Outcome.ok_bind, hm']⟩

/-- The sums of `stats_get_mem` do not wrap, and the used bytes stay below `n` limits. -/
theorem statsGetMem_le {t : Table} {limit : ℕ} (h : TableRep t) (hlim : t.Limit limit)
    (hsum : t.nservers * limit < 2 ^ 63) :
    (statsGetMem t).1 ≤ (statsGetMem t).2 ∧ (statsGetMem t).2 = t.nservers * limit := by
  have key : ∀ n ≤ t.nservers,
      ((List.range n).foldl (fun acc s => (add64 acc.1 (t.part s).size,
        add64 acc.2 (t.part s).maxSize)) ((0, 0) : ℕ × ℕ)).1 ≤ n * limit ∧
      ((List.range n).foldl (fun acc s => (add64 acc.1 (t.part s).size,
        add64 acc.2 (t.part s).maxSize)) ((0, 0) : ℕ × ℕ)).2 = n * limit := by
    intro n
    induction n with
    | zero => simp
    | succ n ih =>
        intro hn
        obtain ⟨h1, h2⟩ := ih (by omega)
        have hle : (n + 1) * limit ≤ t.nservers * limit := Nat.mul_le_mul_right limit hn
        have hfit := h.fits n (by omega)
        rw [hlim n (by omega)] at hfit
        rw [Nat.succ_mul] at hle
        rw [List.range_succ, List.foldl_append, List.foldl_cons, List.foldl_nil]
        simp only [hlim n (by omega)]
        rw [add64_eq (by omega), add64_eq (by omega), Nat.succ_mul]
        omega
  obtain ⟨h1, h2⟩ := key t.nservers le_rfl
  exact ⟨h1.trans h2.ge, h2⟩

/-! ### Every run of calls -/

/-- **The representation invariant over whole runs.**  After any sequence of `hash_lookup` and
`hash_insert` calls that returns, for either eviction algorithm, any answers of `memalign` and any
readings of `read_tsc`: every partition is well formed and within its limit, no subtraction of
`hash_remove` wrapped, the assertion of `destroy_hash_partition` holds when the table is destroyed,
and the used memory is at most the size given to `create_hash_table`. -/
theorem runCalls_invariant {nhash maxSize nservers : ℕ} {evictalgo : Evictalgo} (hnhash : 0 < nhash)
    (hmax : maxSize < 2 ^ 63) (release release' : ReleaseValueF) {calls : List TableCall}
    (hcalls : ∀ c ∈ calls, c.Ok nservers) {t : Table} {rs : List Removal}
    (hrun : runCalls release (emptyTable nhash maxSize nservers evictalgo) calls = .ok (t, rs)) :
    (∀ s < nservers, Rep (t.part s) t.mem 0 ∧ (t.part s).size ≤ (t.part s).maxSize) ∧
      (∀ r ∈ rs, r.elemSize ≤ r.sizeBefore) ∧
      (∃ m, destroyHashTable release' t (List.range nservers) t.mem = .ok m) ∧
      (statsGetMem t).1 ≤ maxSize := by
  have hlimit : maxSize / nservers ≤ maxSize := Nat.div_le_self maxSize nservers
  have hlim : (emptyTable nhash maxSize nservers evictalgo).Limit (maxSize / nservers) :=
    fun _ _ => rfl
  obtain ⟨hrep, hlim', hn, hwrap⟩ := runCalls_rep (Nat.lt_of_le_of_lt hlimit hmax)
    (emptyTable_rep hnhash) hlim hcalls hrun
  have hn' : t.nservers = nservers := hn
  have hprod : t.nservers * (maxSize / nservers) ≤ maxSize := hn' ▸ Nat.mul_div_le maxSize nservers
  obtain ⟨hused, htotal⟩ := statsGetMem_le hrep hlim' (Nat.lt_of_le_of_lt hprod hmax)
  refine ⟨?_, hwrap, ?_, ?_⟩
  · intro s hs
    exact ⟨hrep.rep s (hn' ▸ hs), hrep.fits s (hn' ▸ hs)⟩
  · refine destroyHashTable_ok release' hrep.disjoint (List.range nservers) List.nodup_range ?_ t.mem ?_
    · intro s hs
      exact hn' ▸ List.mem_range.mp hs
    · intro s hs
      exact hrep.rep s (hn' ▸ List.mem_range.mp hs)
  · exact hused.trans (htotal.le.trans hprod)

/-- Two inserts into a partition with room for one element, and a lookup. -/
theorem runCalls_invariant_evicting : ∃ t rs,
    runCalls mpRelease (emptyTable 9 128 1 .lru)
      [.insert 0 5 8 ⟨[some 64], []⟩, .insert 0 6 8 ⟨[some 128], []⟩, .lookup 0 6] = .ok (t, rs) ∧
    (∀ s < 1, Rep (t.part s) t.mem 0 ∧ (t.part s).size ≤ (t.part s).maxSize) ∧
      (∀ r ∈ rs, r.elemSize ≤ r.sizeBefore) ∧
      (∃ m, destroyHashTable atomicRelease t (List.range 1) t.mem = .ok m) ∧
      (statsGetMem t).1 ≤ 128 := by
  have hrun : runCalls mpRelease (emptyTable 9 128 1 .lru)
      [.insert 0 5 8 ⟨[some 64], []⟩, .insert 0 6 8 ⟨[some 128], []⟩, .lookup 0 6] = .ok (_, _) := rfl
  exact ⟨_, _, hrun, runCalls_invariant (by decide) (by decide) mpRelease atomicRelease
    (by simp [TableCall.Ok]) hrun⟩

end SmpHashTable
