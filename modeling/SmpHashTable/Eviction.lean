import SmpHashTable.HashServer
import SmpHashTable.References

/-!
# Making room

`hash_insert` charges the new element before it evicts, and asserts before each eviction that the
counter is larger than the new element alone.  With the least recently used element as the victim and
a `memalign` that succeeds, the loop makes room if and only if the element fits into the partition;
otherwise it empties the partition and the assertion fails.
-/

namespace SmpHashTable

/-- `sizeof(uint32_t)`, which the server program adds to the size of a value. -/
def sizeofUint32 : ℕ := 4

/-! ### The eviction loop -/

section

variable (release : ReleaseValueF) {p : Partition} {m : Mem} {extra esize : ℕ}

/-- The counter of a partition without elements is what is charged in advance. -/
theorem Shape.elems_ne_nil (hr : Shape p m esize) (hlt : esize < 2 ^ 64) (hne : p.size ≠ esize) :
    p.elems ≠ [] := by
  intro hnil
  have hsize := hr.size_mod
  rw [hnil, List.map_nil, List.sum_nil, Nat.zero_add, Nat.mod_eq_of_lt hlt] at hsize
  exact hne hsize

/-- One round takes the last element of the recency list. -/
theorem evictOne_lru (hr : Shape p m esize) (hlru : p.evictalgo = .lru) (hlt : esize < 2 ^ 64)
    (hgt : esize < p.size) (tscs : List ℕ) :
    ∃ l m', l ∈ p.elems ∧ release.run m l = .ok m' ∧
      evictOne release esize tscs p m = .ok (removal p m l, tscs, hashRemove p m l, m') := by
  have hne : p.lru ≠ [] := by
    intro hnil
    have hperm := hr.lru_perm hlru
    rw [hnil] at hperm
    exact hr.elems_ne_nil hlt (by omega) hperm.symm.eq_nil
  have hmem : p.lru.getLast hne ∈ p.elems := (hr.lru_mem hlru _).mp (List.getLast_mem hne)
  obtain ⟨m', hrel⟩ := release.total (hr.live _ hmem)
  refine ⟨_, m', hmem, hrel, ?_⟩
  rw [evictOne, if_pos hgt, victim, hlru]
  simp only [List.getLast?_eq_some_getLast hne, Outcome.ok_bind, hrel]
  rfl

/-- **An element that fits gets its block.**  Every round leaves one element less, and before there is
none left the counter is within the limit. -/
theorem evictLoop_returns (boundary fuel : ℕ) {allocs : List (Option ℕ)} {e : ℕ}
    (halloc : allocs.head? = some (some e)) (tscs : List ℕ) (removed : List Removal)
    (hr : Shape p m esize) (hlru : p.evictalgo = .lru) (hlt : esize < 2 ^ 64)
    (hfit : esize ≤ p.maxSize) (hfuel : p.elems.length < fuel) :
    (∃ x, evictLoop release boundary esize fuel allocs tscs p m removed = .ok x) ∨
      evictLoop release boundary esize fuel allocs tscs p m removed = .error .memalignContract := by
  induction fuel generalizing p m removed with
  | zero => exact absurd hfuel (Nat.not_lt_zero _)
  | succ fuel ih =>
      rw [evictLoop]
      by_cases hle : p.size ≤ p.maxSize
      · have hhead : allocs.headD none = some e := by
          rw [List.headD_eq_head?_getD, halloc]
          rfl
        rw [if_pos hle, hhead, memalign]
        by_cases hfresh : m.Fresh e CACHELINE
        · rw [if_pos hfresh]
          exact Or.inl ⟨_, rfl⟩
        · rw [if_neg hfresh]
          exact Or.inr rfl
      · obtain ⟨l, m', hl, hrel, hone⟩ := evictOne_lru release hr hlru hlt (by omega) tscs
        have hlen := (hashRemove_elems_perm hr hl).length_eq
        rw [List.length_cons] at hlen
        rw [if_neg hle, hone]
        exact ih (removed ++ [removal p m l])
          (hashRemove_release_shape hr hl (release.frame hrel)) hlru hfit (by omega)

/-- **An element that does not fit fails the assertion**, at the latest when it is the only one left
in the account. -/
theorem evictLoop_aborts (boundary fuel : ℕ) (allocs : List (Option ℕ)) (tscs : List ℕ)
    (removed : List Removal) (hr : Rep p m esize) (hlru : p.evictalgo = .lru)
    (hfit : p.maxSize < esize) (hfuel : p.elems.length < fuel) :
    evictLoop release boundary esize fuel allocs tscs p m removed = .error .assertFailed := by
  induction fuel generalizing p m removed with
  | zero => exact absurd hfuel (Nat.not_lt_zero _)
  | succ fuel ih =>
      have hsize := hr.size_eq
      have hlt := hr.size_lt
      rw [evictLoop, if_neg (by omega)]
      by_cases hgt : esize < p.size
      · obtain ⟨l, m', hl, hrel, hone⟩ :=
          evictOne_lru release hr.toShape hlru (by omega) hgt tscs
        have hlen := (hashRemove_elems_perm hr.toShape hl).length_eq
        rw [List.length_cons] at hlen
        rw [hone]
        exact ih (removed ++ [removal p m l])
          (hashRemove_release_rep hr hl (release.frame hrel)) hlru hfit (by omega)
      · rw [evictOne, if_neg hgt]
        rfl

/-! ### `hash_insert` -/

/-- The overwrite of an element with the same key always succeeds. -/
theorem dropOld_total (hr : Shape p m extra) {old : Option ℕ} (hold : ∀ e ∈ old, e ∈ p.elems) :
    ∃ p' m' removed, dropOld release p m old = .ok (p', m', removed) := by
  cases old with
  | none => exact ⟨p, m, [], rfl⟩
  | some e =>
      obtain ⟨m', hrel⟩ := release.total (hr.live e (hold e rfl))
      exact ⟨_, m', _, by rw [dropOld, hrel]; rfl⟩

/-- `hash_insert` up to its loop: the partition the loop starts from, with the new element charged
and nothing else in the way. -/
theorem hashInsert_loop (hr : Shape p m 0) (key : ℕ) (size : ℤ) (o : Oracle) :
    ∃ p₁ m₁ removed,
      Drops release (hashLookup p m key).2 m removed p₁ m₁ ∧
      p₁.evictalgo = p.evictalgo ∧ p₁.maxSize = p.maxSize ∧
      hashInsert p m key size release o =
        (evictLoop release (wordOfInt (sizeofElem + size)) (elemSize size) (p₁.elems.length + 1)
          o.allocs o.tscs { p₁ with size := add64 p₁.size (elemSize size) } m₁ removed >>= fun y =>
        .ok ⟨y.1, (linkElem y.2.1 y.2.2.1 y.1 key (elemSize size)).1,
          (linkElem y.2.1 y.2.2.1 y.1 key (elemSize size)).2, y.2.2.2⟩) := by
  have hr₀ := hashLookup_shape hr key
  have hold : ∀ e ∈ (hashLookup p m key).1, e ∈ (hashLookup p m key).2.elems := by
    intro e he
    rw [hashLookup_elems]
    exact ((hashLookup_eq_some hr key e).mp he).1
  obtain ⟨p₁, m₁, removed, hdrop⟩ := dropOld_total release hr₀ hold
  obtain ⟨-, hd⟩ := dropOld_ok hold hdrop
  obtain ⟨-, hmax, halgo, -⟩ := hd.fields
  obtain ⟨-, -, -, hmax₀, halgo₀⟩ := hashLookup_table p m key
  refine ⟨p₁, m₁, removed, hd, halgo.trans halgo₀, hmax.trans hmax₀, ?_⟩
  rw [hashInsert_eq, hdrop]
  rfl

theorem hashInsert_returns (hr : Shape p m 0) (hlru : p.evictalgo = .lru) {key : ℕ} {size : ℤ}
    {o : Oracle} {e : ℕ} (halloc : o.allocs.head? = some (some e))
    (hcontract : hashInsert p m key size release o ≠ .error .memalignContract)
    (hfit : elemSize size ≤ p.maxSize) : ∃ r, hashInsert p m key size release o = .ok r := by
  obtain ⟨p₁, m₁, removed, hd, halgo, hmax, hins⟩ := hashInsert_loop release hr key size o
  have hr₁ := (hd.shape (hashLookup_shape hr key)).charge (elemSize size)
  rw [Nat.zero_add] at hr₁
  rw [hins] at hcontract ⊢
  rcases evictLoop_returns release (wordOfInt (sizeofElem + size)) (p₁.elems.length + 1) halloc o.tscs
    removed hr₁ (halgo.trans hlru) (elemSize_lt size) (show elemSize size ≤ p₁.maxSize by omega)
    (Nat.lt_succ_self _) with ⟨y, hloop⟩ | hloop
  · rw [hloop]
    exact ⟨_, rfl⟩
  · rw [hloop] at hcontract
    exact absurd rfl hcontract

theorem hashInsert_aborts (hr : Rep p m 0) (hlru : p.evictalgo = .lru) {key : ℕ} {size : ℤ}
    (o : Oracle) (hwrap : p.size + elemSize size < 2 ^ 64) (hfit : p.maxSize < elemSize size) :
    hashInsert p m key size release o = .error .assertFailed := by
  obtain ⟨p₁, m₁, removed, hd, halgo, hmax, hins⟩ :=
    hashInsert_loop release hr.toShape key size o
  have hr₀ := hashLookup_rep hr key
  have hle : p₁.size ≤ p.size := (hd.size_le hr₀).trans_eq (hashLookup_table p m key).2.2.1
  have hr₁ := (hd.rep hr₀).charge (n := elemSize size) (by omega)
  rw [Nat.zero_add] at hr₁
  rw [hins, evictLoop_aborts release _ (p₁.elems.length + 1) o.allocs o.tscs removed hr₁ (halgo.trans hlru)
    (show p₁.maxSize < elemSize size by omega) (Nat.lt_succ_self _)]
  rfl

end

/-! ### The tables of a server program -/

/-- The tables that `create_hash_table` with `EVICT_LRU` and any calls on them can lead to.  Between
two calls servers and clients change the elements, through pointers they hold: reference counts, and
elements that are in no chain any more. -/
inductive TableReach (maxSize nservers : ℕ) : Table → Prop
  | create : TableReach maxSize nservers (createHashTable maxSize nservers .lru)
  | lookup {t : Table} (key : ℕ) (h : TableReach maxSize nservers t) :
      TableReach maxSize nservers (t.setPart (hashGetServer nservers key)
        (hashLookup (t.part (hashGetServer nservers key)) t.mem key).2 t.mem)
  | insert {t : Table} {key : ℕ} {size : ℤ} (release : ReleaseValueF) {o : Oracle} {r : Inserted}
      (h : TableReach maxSize nservers t) (h0 : 0 ≤ size) (hsize : size < 2 ^ 31)
      (hrun : hashInsert (t.part (hashGetServer nservers key)) t.mem key size release o = .ok r) :
      TableReach maxSize nservers (t.setPart (hashGetServer nservers key) r.p r.m)
  | elements {t : Table} {m : Mem} (h : TableReach maxSize nservers t)
      (hkeep : ∀ s < nservers, ∀ e ∈ (t.part s).elems,
        m.Live e ∧ (m.elem e).key = (t.mem.elem e).key ∧ (m.elem e).size = (t.mem.elem e).size) :
      TableReach maxSize nservers { t with mem := m }

/-- Every partition is well formed, within its share, and has the elements of its own keys only.  The
counter of a small share has not wrapped. -/
structure TableInv (limit nservers : ℕ) (t : Table) : Prop where
  shape : ∀ s < nservers, Shape (t.part s) t.mem 0
  home : ∀ s < nservers, ∀ e ∈ (t.part s).elems, hashGetServer nservers (t.mem.elem e).key = s
  lru : ∀ s < nservers, (t.part s).evictalgo = .lru
  share : ∀ s < nservers, (t.part s).maxSize = limit
  fits : ∀ s < nservers, (t.part s).size ≤ limit
  rep : limit < 2 ^ 63 → ∀ s < nservers, Rep (t.part s) t.mem 0

section

variable {limit nservers s : ℕ} {t : Table}

/-- Replacing the partition of one server, when the memory still serves the others. -/
theorem TableInv.setPart (h : TableInv limit nservers t) {p : Partition} {m : Mem}
    (hshape : Shape p m 0) (hhome : ∀ e ∈ p.elems, hashGetServer nservers (m.elem e).key = s)
    (hlru : p.evictalgo = .lru) (hlimit : p.maxSize = limit) (hfits : p.size ≤ limit)
    (hrep : limit < 2 ^ 63 → Rep p m 0)
    (hother : ∀ s' < nservers, s' ≠ s → ∀ a ∈ (t.part s').elems,
      m.Live a ∧ (m.elem a).key = (t.mem.elem a).key ∧ (m.elem a).size = (t.mem.elem a).size) :
    TableInv limit nservers (t.setPart s p m) := by
  have split : ∀ {P : ℕ → Partition → Prop}, P s p → (∀ s' < nservers, s' ≠ s → P s' (t.part s')) →
      ∀ s' < nservers, P s' ((t.setPart s p m).part s') := by
    intro P hself hrest s' hs'
    by_cases heq : s' = s
    · subst heq
      rw [Table.setPart_part_self]
      exact hself
    · rw [Table.setPart_part_of_ne _ _ heq]
      exact hrest s' hs' heq
  refine
    { shape := split (P := fun _ p => Shape p m 0) hshape ?_
      home := split (P := fun s' p => ∀ e ∈ p.elems, hashGetServer nservers (m.elem e).key = s') hhome ?_
      lru := split (P := fun _ p => p.evictalgo = .lru) hlru fun s' hs' _ => h.lru s' hs'
      share := split (P := fun _ p => p.maxSize = limit) hlimit fun s' hs' _ => h.share s' hs'
      fits := split (P := fun _ p => p.size ≤ limit) hfits fun s' hs' _ => h.fits s' hs'
      rep := fun hlt => split (P := fun _ p => Rep p m 0) (hrep hlt) ?_ }
  · intro s' hs' hne
    have hkeep := hother s' hs' hne
    exact (h.shape s' hs').congr_mem (fun a ha => (hkeep a ha).2.1) (fun a ha => (hkeep a ha).2.2)
      fun a ha => (hkeep a ha).1
  · intro s' hs' hne a ha
    rw [(hother s' hs' hne a ha).2.1]
    exact h.home s' hs' a ha
  · intro s' hs' hne
    have hkeep := hother s' hs' hne
    exact (h.rep hlt s' hs').congr_mem (fun a ha => (hkeep a ha).2.1) (fun a ha => (hkeep a ha).2.2)
      fun a ha => (hkeep a ha).1

theorem TableInv.lookup (h : TableInv limit nservers t) (hs : s < nservers) (key : ℕ) :
    TableInv limit nservers (t.setPart s (hashLookup (t.part s) t.mem key).2 t.mem) := by
  obtain ⟨-, -, hsize, hmax, halgo⟩ := hashLookup_table (t.part s) t.mem key
  refine h.setPart (hashLookup_shape (h.shape s hs) key) ?_ (halgo.trans (h.lru s hs))
    (hmax.trans (h.share s hs)) (hsize.trans_le (h.fits s hs))
    (fun hlt => hashLookup_rep (h.rep hlt s hs) key) ?_
  · rw [hashLookup_elems]
    exact h.home s hs
  · intro s' hs' _ a ha
    exact ⟨(h.shape s' hs').live a ha, rfl, rfl⟩

theorem TableInv.insert (h : TableInv limit nservers t) {key : ℕ} {size : ℤ} {release : ReleaseValueF}
    {o : Oracle} {r : Inserted} (hs : s < nservers) (hkey : hashGetServer nservers key = s)
    (h0 : 0 ≤ size) (hsize : size < 2 ^ 31)
    (hrun : hashInsert (t.part s) t.mem key size release o = .ok r) :
    TableInv limit nservers (t.setPart s r.p r.m) := by
  obtain ⟨rest, hpost⟩ := hashInsert_post (h.shape s hs) hrun
  have hlimit := hpost.maxSize_eq.trans (h.share s hs)
  refine h.setPart hpost.shape ?_ (hpost.evictalgo_eq.trans (h.lru s hs)) hlimit
    (hlimit ▸ hpost.fits) ?_ ?_
  · intro a ha
    rcases List.mem_cons.mp (hpost.after.mem_iff.mp ha) with rfl | hrest
    · rw [hpost.key_eq]
      exact hkey
    · obtain ⟨hin, -, hne⟩ := hpost.kept (h.shape s hs).elems_nodup hrest
      rw [hpost.key_of_ne a hne]
      exact h.home s hs a hin
  · intro hlt
    have hcharge := (elemSize_bounds h0 hsize).2
    have hfits := h.fits s hs
    exact (hashInsert_rep (h.rep hlt s hs) (by omega) hrun).1
  · intro s' hs' hne a ha
    have hlive := (h.shape s' hs').live a ha
    have hnot : a ∉ (t.part s).elems := fun hin =>
      hne ((h.home s' hs' a ha).symm.trans (h.home s hs a hin))
    obtain ⟨hkept, hnew⟩ := hpost.other hlive hnot
    rw [hpost.elem_of_notMem a hkept hnew]
    exact ⟨(hpost.live_of_notMem a hkept hnew).mpr hlive, rfl, rfl⟩

theorem TableInv.elements (h : TableInv limit nservers t) {m : Mem}
    (hkeep : ∀ s < nservers, ∀ e ∈ (t.part s).elems,
      m.Live e ∧ (m.elem e).key = (t.mem.elem e).key ∧ (m.elem e).size = (t.mem.elem e).size) :
    TableInv limit nservers { t with mem := m } where
  shape s hs := (h.shape s hs).congr_mem (fun a ha => (hkeep s hs a ha).2.1)
    (fun a ha => (hkeep s hs a ha).2.2) fun a ha => (hkeep s hs a ha).1
  home s hs a ha := by
    show hashGetServer nservers (m.elem a).key = s
    rw [(hkeep s hs a ha).2.1]
    exact h.home s hs a ha
  lru := h.lru
  share := h.share
  fits := h.fits
  rep hlt s hs := (h.rep hlt s hs).congr_mem (fun a ha => (hkeep s hs a ha).2.1)
    (fun a ha => (hkeep s hs a ha).2.2) fun a ha => (hkeep s hs a ha).1

/-- **Every reachable table is well formed**, whatever its size. -/
theorem TableReach.inv {maxSize : ℕ} (hn : 0 < nservers) (h : TableReach maxSize nservers t) :
    TableInv (maxSize / nservers) nservers t := by
  induction h with
  | create =>
      have hge := initNhash_ge (maxSize / nservers) nservers hn
      have hrep : Rep (initHashPartition (maxSize / nservers) nservers .lru) Mem.empty 0 :=
        emptyPartition_rep Mem.empty (by omega)
      have helems : (initHashPartition (maxSize / nservers) nservers .lru).elems = [] :=
        Lists.cat_const_nil _
      refine ⟨fun _ _ => hrep.toShape, ?_, fun _ _ => rfl, fun _ _ => rfl, fun _ _ => Nat.zero_le _,
        fun _ _ _ => hrep⟩
      intro s _ e he
      have he' : e ∈ (initHashPartition (maxSize / nservers) nservers .lru).elems := he
      rw [helems] at he'
      cases he'
  | lookup key _ ih => exact ih.lookup (Nat.mod_lt key hn) key
  | insert release _ h0 hsize hrun ih => exact ih.insert (Nat.mod_lt _ hn) rfl h0 hsize hrun
  | elements _ hkeep ih => exact ih.elements hkeep

end

/-! ### Connection with the runs of servers and clients -/

/-- The size of an executed insert is one a caller of `smp_hash_insert` can mean. -/
def Event.Sized : Event → Prop
  | .exec _ _ (.insert _ size) _ _ _ => 0 ≤ size ∧ size < 2 ^ 31
  | _ => True

section

variable {maxSize nservers s : ℕ} {t t' : Table}

/-- A change of reference counts after a call. -/
theorem TableReach.recount (h : TableReach maxSize nservers t) (hn : t'.nservers = t.nservers)
    (hpart : t'.part = t.part) (helem : ∀ e, (t'.mem.elem e).key = (t.mem.elem e).key ∧
      (t'.mem.elem e).size = (t.mem.elem e).size)
    (hlive : ∀ s < nservers, ∀ e ∈ (t'.part s).elems, t'.mem.Live e) : TableReach maxSize nservers t' := by
  obtain ⟨n, part, mem⟩ := t'
  obtain rfl : n = t.nservers := hn
  obtain rfl : part = t.part := hpart
  exact h.elements fun s hs e he => ⟨hlive s hs e he, helem e⟩

/-- What a server does with a message at home leads to a reachable table. -/
theorem TableReach.serverOp (h : TableReach maxSize nservers t) {op : Op} {o : Oracle}
    {resp : Option ℕ} {removed : List Removal} (hop : serverOp t s o op = .ok (t', resp, removed))
    (hhome : ∀ key, op = .lookup key ∨ (∃ size, op = .insert key size) → s = hashGetServer nservers key)
    (hsize : ∀ key size, op = .insert key size → 0 ≤ size ∧ size < 2 ^ 31)
    (hlive : ∀ s < nservers, ∀ e ∈ (t'.part s).elems, t'.mem.Live e) :
    TableReach maxSize nservers t' := by
  have hcount : ∀ (m : Mem) (e rc a : ℕ),
      ((m.setElem e { m.elem e with refCount := rc }).elem a).key = (m.elem a).key ∧
        ((m.setElem e { m.elem e with refCount := rc }).elem a).size = (m.elem a).size := by
    intro m e rc a
    by_cases ha : a = e
    · subst ha
      rw [Mem.setElem_self]
      exact ⟨rfl, rfl⟩
    · rw [Mem.setElem_of_ne _ _ ha]
      exact ⟨rfl, rfl⟩
  cases op with
  | lookup key =>
      obtain rfl := hhome key (Or.inl rfl)
      have hreach := h.lookup key
      simp only [SmpHashTable.serverOp] at hop
      split at hop
      · next e _ =>
        split at hop
        · cases hop
          exact hreach.recount rfl rfl (hcount t.mem e _) hlive
        · cases hop
          exact hreach
      · cases hop
        exact hreach
  | insert key size =>
      obtain rfl := hhome key (Or.inr ⟨size, rfl⟩)
      obtain ⟨h0, hlt⟩ := hsize key size rfl
      obtain ⟨r, hrun, hop⟩ := Outcome.bind_ok.mp hop
      cases hop
      exact (h.insert mpRelease h0 hlt hrun).recount rfl rfl (hcount r.m r.e _) hlive
  | release e =>
      obtain ⟨m, hrun, hop⟩ := Outcome.bind_ok.mp hop
      cases hop
      have hframe := storeRefCount_frame hrun
      exact h.recount rfl rfl (fun a => ⟨hframe.key a, hframe.size a⟩) hlive

/-- **The table of every disciplined run of servers and clients is reachable**, when the inserts have
sizes of 31 bits. -/
theorem disciplined_tableReach {st : Sys} {log : List Event}
    (h : Sys.Disciplined (createHashTable maxSize nservers .lru) st log) (hsized : ∀ e ∈ log, e.Sized) :
    TableReach maxSize nservers st.table := by
  -- the ghost state is the log so far
  obtain ⟨f, g, hlog, hcoup, ⟨-, -, hreach⟩⟩ := h.invariant (fun _ g e => g ++ [e]) ([] : List Event)
    (Q := fun N f g => Settled N f ∧ f.table.nservers = nservers ∧
      ((∀ e ∈ g, e.Sized) → TableReach maxSize nservers f.table))
    ⟨settled_init maxSize nservers .lru, rfl, fun _ => .create⟩
    (fun h => ⟨h.1.create, h.2⟩) (fun {N f f' g e} h he happly => by
      obtain ⟨hset, hn, hreach⟩ := h
      have hset' := hset.apply he happly
      have hn' : f'.table.nservers = nservers := (Fifo.apply_nservers happly).trans hn
      refine ⟨hset', hn', fun hall => ?_⟩
      have hold := hreach fun x hx => hall x (List.mem_append_left _ hx)
      have hthis := hall e (List.mem_append_right _ List.mem_cons_self)
      cases e with
      | issue c s m =>
          obtain ⟨-, rfl⟩ := Fifo.apply_issue happly
          exact hold
      | exec s c op o resp removed =>
          obtain ⟨m, rest, t, htodo, hop, hm, rfl⟩ := Fifo.apply_exec happly
          have hroute := hset.routed c s m (by rw [htodo]; exact List.mem_cons_self)
          refine hold.serverOp hop ?_ ?_ fun s hs e he => (hset'.refs.shape s (hn' ▸ hs)).live e he
          · rintro key (rfl | ⟨size, rfl⟩)
            · cases m <;> cases hm
              exact hn ▸ hroute
            · cases m <;> cases hm
              exact hn ▸ hroute
          · rintro key size rfl
            exact hthis
      | read c s v =>
          obtain ⟨x, -, rfl⟩ := Fifo.apply_read happly
          exact hold
      | got c v =>
          obtain ⟨a, x, -, -, rfl⟩ := Fifo.apply_got happly
          exact hold
      | doallDone c queries values =>
          obtain ⟨-, -, -, -, rfl⟩ := Fifo.apply_doallDone happly
          exact hold)
  have hg : g = log := Runs.replay_history (P := fun x log => x.2 = log) rfl
    (fun {a a' log e} hP happly => by
      obtain ⟨f', -, rfl⟩ := Option.map_eq_some_iff.mp happly
      show a.2 ++ [e] = log ++ [e]
      rw [hP]) hlog
  rw [← hcoup.table]
  exact hreach (hg ▸ hsized)

end

/-! ### Inserts of a server program -/

/-- **An insert returns if and only if its element fits into the partition (proved).**  The share of a
partition is `max_size / nservers`, and the element of a value of `v` bytes has `elem_size(v + 4)`
bytes.  If it fits, `hash_insert` returns an element after finitely many evictions, and its value
pointer is not `NULL`; if not, `assert(p->size > elem_size)` fails, whatever is in the partition. -/
theorem hashInsert_returns_iff {maxSize nservers : ℕ} (hn : 0 < nservers) {t : Table}
    (h : TableReach maxSize nservers t) (release : ReleaseValueF) (key : ℕ) {v : ℕ}
    (hv : v ≤ MAX_VALUE_SIZE) {o : Oracle} {e : ℕ} (halloc : o.allocs.head? = some (some e))
    (hcontract : hashInsert (t.part (hashGetServer nservers key)) t.mem key (v + sizeofUint32 : ℕ)
      release o ≠ .error .memalignContract) :
    ((∃ r, hashInsert (t.part (hashGetServer nservers key)) t.mem key (v + sizeofUint32 : ℕ) release o
        = .ok r ∧ valuePtr r.e ≠ 0) ↔ elemSize (v + sizeofUint32 : ℕ) ≤ maxSize / nservers) ∧
      (maxSize / nservers < elemSize (v + sizeofUint32 : ℕ) →
        hashInsert (t.part (hashGetServer nservers key)) t.mem key (v + sizeofUint32 : ℕ) release o
          = .error .assertFailed) := by
  have hs : hashGetServer nservers key < nservers := Nat.mod_lt key hn
  have hinv := h.inv hn
  have hshare := hinv.share _ hs
  have hsize : elemSize (v + sizeofUint32 : ℕ) < 2 ^ 32 := by
    refine (elemSize_bounds (Int.natCast_nonneg _) ?_).2
    have hlt : v + sizeofUint32 < 2 ^ 31 := lt_of_le_of_lt (Nat.add_le_add_right hv _) (by decide)
    exact_mod_cast hlt
  have haborts : maxSize / nservers < elemSize (v + sizeofUint32 : ℕ) →
      hashInsert (t.part (hashGetServer nservers key)) t.mem key (v + sizeofUint32 : ℕ) release o
        = .error .assertFailed := by
    intro hlt
    have hfits := hinv.fits _ hs
    exact hashInsert_aborts release (hinv.rep (by omega) _ hs) (hinv.lru _ hs) o (by omega)
      (hshare ▸ hlt)
  refine ⟨⟨?_, ?_⟩, haborts⟩
  · rintro ⟨r, hrun, -⟩
    by_contra hgt
    rw [haborts (Nat.lt_of_not_le hgt)] at hrun
    cases hrun
  · intro hfit
    obtain ⟨r, hrun⟩ := hashInsert_returns release (hinv.shape _ hs) (hinv.lru _ hs) halloc hcontract
      (hshare ▸ hfit)
    refine ⟨r, hrun, ?_⟩
    unfold valuePtr sizeofElem
    omega

/-- A value of 1000 bytes in an empty table of 2000 bytes. -/
theorem hashInsert_returns_small :
    ((∃ r, hashInsert ((createHashTable 2000 1 .lru).part (hashGetServer 1 5)) Mem.empty 5
        (1000 + sizeofUint32 : ℕ) mpRelease ⟨[some 64], []⟩ = .ok r ∧ valuePtr r.e ≠ 0) ↔
        elemSize (1000 + sizeofUint32 : ℕ) ≤ 2000 / 1) ∧
      (2000 / 1 < elemSize (1000 + sizeofUint32 : ℕ) →
        hashInsert ((createHashTable 2000 1 .lru).part (hashGetServer 1 5)) Mem.empty 5
          (1000 + sizeofUint32 : ℕ) mpRelease ⟨[some 64], []⟩ = .error .assertFailed) := by
  have hrun : (hashInsert ((createHashTable 2000 1 .lru).part (hashGetServer 1 5)) Mem.empty 5
      (1000 + sizeofUint32 : ℕ) mpRelease ⟨[some 64], []⟩).map Inserted.e = .ok 64 := by decide +kernel
  refine hashInsert_returns_iff (by decide) (.create : TableReach 2000 1 _) mpRelease 5 (by decide)
    (o := ⟨[some 64], []⟩) rfl ?_
  intro herror
  have herror' : hashInsert ((createHashTable 2000 1 .lru).part (hashGetServer 1 5)) Mem.empty 5
      (1000 + sizeofUint32 : ℕ) mpRelease ⟨[some 64], []⟩ = .error .memalignContract := herror
  rw [herror'] at hrun
  cases hrun

/-- A value of 1000 bytes in an empty table of 1000 bytes. -/
theorem hashInsert_aborts_small : ∃ t, TableReach 1000 1 t ∧ 1000 ≤ MAX_VALUE_SIZE ∧
    hashInsert (t.part (hashGetServer 1 5)) t.mem 5 (1000 + sizeofUint32 : ℕ) mpRelease ⟨[some 64], []⟩
      = .error .assertFailed := by
  refine ⟨_, .create, by decide, ?_⟩
  have hrun : (hashInsert ((createHashTable 1000 1 .lru).part (hashGetServer 1 5)) Mem.empty 5
      (1000 + sizeofUint32 : ℕ) mpRelease ⟨[some 64], []⟩).map Inserted.e = .error .assertFailed := by
    decide +kernel
  cases hins : hashInsert ((createHashTable 1000 1 .lru).part (hashGetServer 1 5)) Mem.empty 5
      (1000 + sizeofUint32 : ℕ) mpRelease ⟨[some 64], []⟩ with
  | error stop =>
      rw [hins] at hrun
      cases hrun
      exact hins
  | ok r =>
      rw [hins] at hrun
      cases hrun

end SmpHashTable
