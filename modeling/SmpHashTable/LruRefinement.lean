import SmpHashTable.Lib.LruCache
import SmpHashTable.PartitionInv

/-!
# A partition with `EVICT_LRU` is an LRU cache

The abstract object is one list of entries, most recently used first (`LruCache`).  An element of
the partition is seen as the entry with its key, its charged size and its address; the partition's
recency list, seen this way, is the abstract list after every call.  Bucket chains and the number
of buckets do not occur on the abstract side.
-/

namespace SmpHashTable

abbrev LruEntry := LruCache.Entry ℕ ℕ

/-- The entry an element stands for. -/
def view (m : Mem) (a : ℕ) : LruEntry := ⟨(m.elem a).key, (m.elem a).size, a⟩

/-- A call on one partition; the block `memalign` returns comes with the insert. -/
inductive PartCall
  | lookup (key : ℕ)
  | insert (key : ℕ) (size : ℤ) (block : ℕ)

/-- What a caller observes: the element returned, and the elements passed to `release` in order. -/
structure PartOut where
  ret : Option LruEntry
  released : List LruEntry
  deriving DecidableEq, Repr

def PartCall.run (release : ReleaseValueF) (p : Partition) (m : Mem) :
    PartCall → Except Stop (Partition × Mem × PartOut)
  | .lookup key =>
      .ok ((hashLookup p m key).2, m, ⟨(hashLookup p m key).1.map (view m), []⟩)
  | .insert key size block => do
      let r ← hashInsert p m key size release ⟨[some block], []⟩
      return (r.p, r.m, ⟨some (view r.m r.e), r.removed.map fun x => view m x.e⟩)

def runPart (release : ReleaseValueF) (p : Partition) (m : Mem) :
    List PartCall → Except Stop (Partition × Mem × List PartOut)
  | [] => .ok (p, m, [])
  | c :: cs => do
      let (p, m, out) ← c.run release p m
      let (p, m, outs) ← runPart release p m cs
      return (p, m, out :: outs)

/-- The same call on the abstract cache. -/
def PartCall.spec (cap : ℕ) (es : List LruEntry) : PartCall → List LruEntry × PartOut
  | .lookup key => ((LruCache.lookup key es).2, ⟨(LruCache.lookup key es).1, []⟩)
  | .insert key size block =>
      ((LruCache.insert cap ⟨key, elemSize size, block⟩ es).1,
        ⟨some ⟨key, elemSize size, block⟩, (LruCache.insert cap ⟨key, elemSize size, block⟩ es).2⟩)

def runSpec (cap : ℕ) (es : List LruEntry) : List PartCall → List LruEntry × List PartOut
  | [] => (es, [])
  | c :: cs =>
      let r := c.spec cap es
      let rs := runSpec cap r.1 cs
      (rs.1, r.2 :: rs.2)

/-- An insert has a size the code accepts and fits into the partition alone. -/
def PartCall.Ok (maxSize : ℕ) : PartCall → Prop
  | .lookup _ => True
  | .insert _ size _ => 0 ≤ size ∧ size < 2 ^ 31 ∧ elemSize size ≤ maxSize

instance (maxSize : ℕ) : (c : PartCall) → Decidable (c.Ok maxSize)
  | .lookup _ => .isTrue trivial
  | .insert _ _ _ => inferInstanceAs (Decidable (_ ∧ _ ∧ _))

/-- The partition holds exactly the entries `es`, in this order of recency. -/
structure LruRep (p : Partition) (m : Mem) (es : List LruEntry) : Prop where
  rep : Rep p m 0
  fits : p.size ≤ p.maxSize
  lru : p.evictalgo = .lru
  entries : p.lru.map (view m) = es

section

variable {release : ReleaseValueF} {p : Partition} {m : Mem} {extra : ℕ}

theorem view_keys (l : List ℕ) : (l.map (view m)).map LruCache.Entry.key
    = l.map fun a => (m.elem a).key := by
  rw [List.map_map]
  rfl

theorem total_view (l : List ℕ) : LruCache.total (l.map (view m))
    = (l.map fun a => (m.elem a).size).sum := by
  rw [LruCache.total, List.map_map]
  rfl

theorem lru_keys_nodup (hr : Rep p m extra) (hl : p.evictalgo = .lru) :
    ((p.lru.map (view m)).map LruCache.Entry.key).Nodup := by
  rw [view_keys]
  refine List.Nodup.map_on ?_ (hr.lru_nodup hl)
  intro a ha a' ha' heq
  exact hr.key_inj a ((hr.lru_mem hl a).mp ha) a' ((hr.lru_mem hl a').mp ha') heq

/-- The counter of a charged partition is the total of its entries plus the charge. -/
theorem size_eq_total (hr : Rep p m extra) (hl : p.evictalgo = .lru) :
    p.size = LruCache.total (p.lru.map (view m)) + extra := by
  rw [total_view, hr.size_eq, ((hr.lru_perm hl).map fun a => (m.elem a).size).sum_eq]

/-! ### Lookup -/

theorem lru_find (hr : Rep p m extra) (hl : p.evictalgo = .lru) (key : ℕ) :
    (p.lru.map (view m)).find? (fun x => x.key = key) = (hashLookup p m key).1.map (view m) := by
  cases hres : (hashLookup p m key).1 with
  | none =>
      rw [Option.map_none, List.find?_eq_none]
      intro x hx
      obtain ⟨a, ha, rfl⟩ := List.mem_map.mp hx
      have hne := (hashLookup_eq_none hr.toShape key).mp hres a ((hr.lru_mem hl a).mp ha)
      rw [decide_eq_true_eq]
      exact hne
  | some e =>
      obtain ⟨he, hkey⟩ := (hashLookup_eq_some hr.toShape key e).mp hres
      have hmem : view m e ∈ p.lru.map (view m) := List.mem_map_of_mem ((hr.lru_mem hl e).mpr he)
      have hone := LruCache.filter_key_eq (lru_keys_nodup hr hl) hmem
      have hk : (view m e).key = key := hkey
      rw [hk] at hone
      rw [Option.map_some, ← List.head?_filter, hone, List.head?_cons]

/-- Erasing the element of a key is filtering that key out of the entries. -/
theorem lru_erase (hr : Rep p m extra) (hl : p.evictalgo = .lru) {e : ℕ} (he : e ∈ p.elems) :
    (p.lru.erase e).map (view m)
      = (p.lru.map (view m)).filter fun x => x.key ≠ (m.elem e).key := by
  rw [(hr.lru_nodup hl).erase_eq_filter, List.filter_map]
  refine congrArg _ (List.filter_congr ?_)
  intro a ha
  have ha' := (hr.lru_mem hl a).mp ha
  have hiff : a = e ↔ (m.elem a).key = (m.elem e).key :=
    ⟨fun h => h ▸ rfl, fun h => hr.key_inj a ha' e he h⟩
  rw [Bool.eq_iff_iff, bne_iff_ne, Function.comp_apply, decide_eq_true_eq]
  exact not_congr hiff

theorem hashLookup_lruRep {es : List LruEntry} (h : LruRep p m es) (key : ℕ) :
    (hashLookup p m key).1.map (view m) = (LruCache.lookup key es).1 ∧
      LruRep (hashLookup p m key).2 m (LruCache.lookup key es).2 := by
  obtain ⟨hr, hfits, hl, rfl⟩ := h
  have hfind := lru_find hr hl key
  obtain ⟨-, -, hsize, hmax, halgo⟩ := hashLookup_table p m key
  have hentries := hashLookup_lru p m key hl
  have hrep := hashLookup_rep hr key
  have hfit' : (hashLookup p m key).2.size ≤ (hashLookup p m key).2.maxSize := by
    rw [hsize, hmax]
    exact hfits
  unfold LruCache.lookup
  rw [hfind]
  cases hres : (hashLookup p m key).1 with
  | none =>
      rw [hres] at hentries
      exact ⟨rfl, hrep, hfit', halgo.trans hl, congrArg _ hentries⟩
  | some e =>
      obtain ⟨he, hkey⟩ := (hashLookup_eq_some hr.toShape key e).mp hres
      rw [hres] at hentries
      refine ⟨rfl, hrep, hfit', halgo.trans hl, ?_⟩
      rw [hentries, List.map_cons, lru_erase hr hl he, hkey]
      rfl

/-! ### Eviction -/

/-- `release` on a list of elements, in order. -/
def releaseAll (release : ReleaseValueF) (m : Mem) : List ℕ → Except Stop Mem
  | [] => .ok m
  | e :: es => do
      let m' ← release.run m e
      releaseAll release m' es

theorem releaseAll_append (release : ReleaseValueF) (m : Mem) (es es' : List ℕ) :
    releaseAll release m (es ++ es')
      = (releaseAll release m es >>= fun m' => releaseAll release m' es') := by
  induction es generalizing m with
  | nil => rfl
  | cons e es ih =>
      show (release.run m e >>= fun m' => releaseAll release m' (es ++ es')) = _
      rw [releaseAll]
      cases release.run m e with
      | error x => rfl
      | ok m' => exact ih m'

theorem Drops.releaseAll {p' : Partition} {m' : Mem} {rs : List Removal}
    (h : Drops release p m rs p' m') : releaseAll release m (rs.map Removal.e) = .ok m' := by
  induction h with
  | nil p m => rfl
  | cons _ hrel _ ih =>
      rw [List.map_cons, SmpHashTable.releaseAll]
      show (release.run _ _ >>= fun m' => SmpHashTable.releaseAll release m' _) = _
      rw [removal, hrel, Outcome.ok_bind, ih]

/-- The rounds of eviction that are left, as a function of the abstract list. -/
theorem evictLoop_lru (release : ReleaseValueF) (boundary block : ℕ) (allocs : List (Option ℕ)) (tscs : List ℕ) {esize : ℕ}
    (fuel : ℕ) (hr : Rep p m esize) (hl : p.evictalgo = .lru) (hcap : esize ≤ p.maxSize)
    (hfuel : p.lru.length < fuel) (removed : List Removal) :
    ∃ rs p' m₁, Drops release p m rs p' m₁ ∧
      (p'.lru.map (view m)).reverse
        = (LruCache.trim p.maxSize esize (p.lru.map (view m)).reverse).1 ∧
      rs.map (fun x => view m x.e)
        = (LruCache.trim p.maxSize esize (p.lru.map (view m)).reverse).2 ∧
      p'.size ≤ p'.maxSize ∧
      evictLoop release boundary esize fuel (some block :: allocs) tscs p m removed
        = (memalign m₁ boundary CACHELINE (some block) >>= fun x =>
            .ok (block, p', x.2, removed ++ rs)) := by
  induction fuel generalizing p m removed with
  | zero => omega
  | succ fuel ih =>
      have hsize := size_eq_total hr hl
      rw [evictLoop]
      by_cases hle : p.size ≤ p.maxSize
      · -- the new element fits: the loop allocates and ends
        refine ⟨[], p, m, .nil p m, ?_, ?_, hle, ?_⟩
        · rw [LruCache.trim_fits (by rw [LruCache.total_reverse]; omega)]
        · rw [LruCache.trim_fits (by rw [LruCache.total_reverse]; omega)]
          rfl
        · rw [if_pos hle]
          by_cases hf : m.Fresh block CACHELINE
          · simp [memalign, hf]
          · simp [memalign, hf]
      · -- otherwise the list is not empty and its last element goes
        have hne : p.lru ≠ [] := by
          rintro hnil
          rw [hnil] at hsize
          simp only [List.map_nil, LruCache.total, List.sum_nil] at hsize
          omega
        obtain ⟨l, hlast⟩ := List.getLast?_isSome.mpr hne |> Option.isSome_iff_exists.mp
        obtain ⟨init, hinit⟩ := List.getLast?_eq_some_iff.mp hlast
        have hlmem : l ∈ p.elems := (hr.lru_mem hl l).mp (List.mem_of_getLast? hlast)
        obtain ⟨m₁, hrel⟩ := release.total (hr.live l hlmem)
        have hframe := release.frame hrel
        have hview : view m₁ = view m := by
          funext a
          rw [view, view, hframe.key, hframe.size]
        have hone : evictOne release esize tscs p m
            = .ok (removal p m l, tscs, hashRemove p m l, m₁) := by
          rw [evictOne, if_pos (by omega), victim, hl]
          simp [hlast, hrel]
        have hr₁ := hashRemove_release_rep hr hlmem hframe
        have hnd := hr.lru_nodup hl
        have hlru₁ : (hashRemove p m l).lru = init := by
          rw [hinit] at hnd
          have hnot : l ∉ init := fun hmem =>
            (List.disjoint_of_nodup_append hnd) hmem (List.mem_singleton_self l)
          simp only [hashRemove, hl, if_true, hinit]
          rw [List.erase_append_right _ hnot, List.erase_cons_head, List.append_nil]
        obtain ⟨rs, p', m₂, hd, hkept, hdropped, hfit, hloop⟩ :=
          ih hr₁ (show (hashRemove p m l).evictalgo = .lru from hl) hcap
            (by rw [hlru₁]; rw [hinit] at hfuel; simp at hfuel; omega) (removed ++ [removal p m l])
        rw [hlru₁, hview] at hkept hdropped
        have hrev : (p.lru.map (view m)).reverse = view m l :: (init.map (view m)).reverse := by
          rw [hinit]
          simp
        have hbig : ¬ LruCache.total (view m l :: (init.map (view m)).reverse) + esize
            ≤ p.maxSize := by
          rw [← hrev, LruCache.total_reverse]
          omega
        have htrim := LruCache.trim_drop hbig
        refine ⟨removal p m l :: rs, p', m₂, .cons hlmem hrel hd, ?_, ?_, hfit, ?_⟩
        · rw [hrev, htrim]
          rw [hview] at *
          exact hkept
        · rw [hrev, htrim, List.map_cons]
          exact congrArg _ hdropped
        · rw [if_neg hle, hone, Outcome.ok_bind]
          simpa using hloop

/-! ### Insert -/

theorem Drops.view_eq {p' : Partition} {m' : Mem} {rs : List Removal}
    (h : Drops release p m rs p' m') : view m' = view m := by
  funext a
  rw [view, view, h.fields.2.2.2.1, h.fields.2.2.2.2]

/-- The overwrite drops the entry of the key, if there is one. -/
theorem dropOld_lru (release : ReleaseValueF) {es : List LruEntry} (h : LruRep p m es) (key : ℕ) :
    ∃ p₁ m₁ rs, dropOld release (hashLookup p m key).2 m (hashLookup p m key).1 = .ok (p₁, m₁, rs) ∧
      Drops release (hashLookup p m key).2 m rs p₁ m₁ ∧
      rs.map (fun x => view m x.e) = es.filter (fun x => x.key = key) ∧
      p₁.lru.map (view m) = es.filter (fun x => x.key ≠ key) := by
  obtain ⟨hr, -, hl, rfl⟩ := h
  have hfind := lru_find hr hl key
  have hlru := hashLookup_lru p m key hl
  have halgo : (hashLookup p m key).2.evictalgo = .lru := (hashLookup_table p m key).2.2.2.2.trans hl
  cases hres : (hashLookup p m key).1 with
  | none =>
      rw [hres] at hfind hlru
      have hall : ∀ x ∈ p.lru.map (view m), x.key ≠ key := by
        intro x hx
        simpa using List.find?_eq_none.mp hfind x hx
      refine ⟨_, m, [], rfl, .nil _ m, ?_, ?_⟩
      · rw [List.map_nil, eq_comm, List.filter_eq_nil_iff]
        intro x hx
        simpa using hall x hx
      · rw [hlru, eq_comm, List.filter_eq_self]
        intro x hx
        simpa using hall x hx
  | some e =>
      obtain ⟨he, hkey⟩ := (hashLookup_eq_some hr.toShape key e).mp hres
      obtain ⟨m₁, hrel⟩ := release.total (hr.live e he)
      have he₀ : e ∈ (hashLookup p m key).2.elems := by
        rw [hashLookup_elems]
        exact he
      have hmem : view m e ∈ p.lru.map (view m) := List.mem_map_of_mem ((hr.lru_mem hl e).mpr he)
      have hone := LruCache.filter_key_eq (lru_keys_nodup hr hl) hmem
      have hk : (view m e).key = key := hkey
      rw [hk] at hone
      rw [hres] at hlru
      refine ⟨_, m₁, [removal (hashLookup p m key).2 m e], ?_, .cons he₀ hrel (.nil _ _), ?_, ?_⟩
      · rw [dropOld, hrel]
        rfl
      · rw [hone]
        rfl
      · simp only [hashRemove, halgo, if_true]
        rw [hlru, List.erase_cons_head, lru_erase hr hl he, hkey]

/-- The memory after an insert has released the dropped entries and taken its block. -/
def insertMem (m : Mem) (block key esize : ℕ) : Mem :=
  { m with blocks := (block, CACHELINE) :: m.blocks }.setElem block
    { m.elem block with key := key, size := esize }

/-- **An insert refines the abstract insert.**  Which elements it drops, whether the block offered
is one `memalign` could return, and the memory it leaves depend on the abstract list only. -/
theorem hashInsert_lru (release : ReleaseValueF) {es : List LruEntry} (h : LruRep p m es) {key : ℕ} {size : ℤ} {block : ℕ}
    (hmax : p.maxSize < 2 ^ 63) (hok : (PartCall.insert key size block).Ok p.maxSize) :
    ∃ m₂, releaseAll release m ((LruCache.insert p.maxSize ⟨key, elemSize size, block⟩ es).2.map
        LruCache.Entry.val) = .ok m₂ ∧
      ((¬ m₂.Fresh block CACHELINE ∧
          hashInsert p m key size release ⟨[some block], []⟩ = .error .memalignContract) ∨
        (m₂.Fresh block CACHELINE ∧ ∃ r, hashInsert p m key size release ⟨[some block], []⟩ = .ok r ∧
          r.e = block ∧ r.m = insertMem m₂ block key (elemSize size) ∧
          r.removed.map (fun x => view m x.e)
            = (LruCache.insert p.maxSize ⟨key, elemSize size, block⟩ es).2 ∧
          r.p.maxSize = p.maxSize ∧
          LruRep r.p r.m (LruCache.insert p.maxSize ⟨key, elemSize size, block⟩ es).1)) := by
  obtain ⟨h0, hsz, hcap⟩ := hok
  obtain ⟨p₁, m₁, old, hold, hd₁, hold_view, hlru₁⟩ := dropOld_lru release h key
  have hr₀ := hashLookup_rep h.rep key
  have hr₁ := hd₁.rep hr₀
  obtain ⟨-, hmax₁, halgo₁, -, -⟩ := hd₁.fields
  have hl₁ : p₁.evictalgo = .lru :=
    halgo₁.trans ((hashLookup_table p m key).2.2.2.2.trans h.lru)
  have hmax₁' : p₁.maxSize = p.maxSize := hmax₁.trans (hashLookup_table p m key).2.2.2.1
  have hsize₁ : p₁.size ≤ p.size := (hd₁.size_le hr₀).trans_eq (hashLookup_table p m key).2.2.1
  have hcharge : p₁.size + elemSize size < 2 ^ 64 := by
    have := h.fits
    have := (elemSize_bounds h0 hsz).2
    omega
  have hr₂ := hr₁.charge hcharge
  rw [Nat.zero_add] at hr₂
  set p₂ : Partition := { p₁ with size := add64 p₁.size (elemSize size) } with hp₂
  have hfuel : p₂.lru.length < p₂.elems.length + 1 := by
    rw [(hr₂.lru_perm (show p₂.evictalgo = .lru from hl₁)).length_eq]
    omega
  obtain ⟨rs, p₃, m₃, hd₂, hkept, hdropped, hfit, hloop⟩ :=
    evictLoop_lru release (wordOfInt (sizeofElem + size)) block [] [] (p₂.elems.length + 1) hr₂
      (show p₂.evictalgo = .lru from hl₁) (show elemSize size ≤ p₂.maxSize from hmax₁' ▸ hcap)
      hfuel old
  have hp₂lru : p₂.lru.map (view m₁) = es.filter (fun x => x.key ≠ key) := by
    rw [hd₁.view_eq]
    exact hlru₁
  have hp₂max : p₂.maxSize = p.maxSize := hmax₁'
  rw [hp₂lru, hp₂max] at hkept hdropped
  rw [hd₁.view_eq] at hdropped
  have hdrop : (old ++ rs).map (fun x => view m x.e)
      = (LruCache.insert p.maxSize ⟨key, elemSize size, block⟩ es).2 := by
    rw [List.map_append, hold_view, hdropped]
    rfl
  have hins : hashInsert p m key size release ⟨[some block], []⟩
      = (memalign m₃ (wordOfInt (sizeofElem + size)) CACHELINE (some block) >>= fun x =>
          .ok ⟨block, (linkElem p₃ x.2 block key (elemSize size)).1,
            (linkElem p₃ x.2 block key (elemSize size)).2, old ++ rs⟩) := by
    rw [hashInsert_eq, hold, Outcome.ok_bind]
    simp only
    rw [← hp₂, hloop]
    cases memalign m₃ (wordOfInt (sizeofElem + size)) CACHELINE (some block) with
    | error e => rfl
    | ok x => rfl
  have hall : releaseAll release m ((LruCache.insert p.maxSize ⟨key, elemSize size, block⟩ es).2.map
      LruCache.Entry.val) = .ok m₃ := by
    rw [← hdrop, List.map_map]
    have h₁ := hd₁.releaseAll
    have h₂ := hd₂.releaseAll
    rw [show (old ++ rs).map (LruCache.Entry.val ∘ fun x => view m x.e)
      = old.map Removal.e ++ rs.map Removal.e from by rw [List.map_append]; rfl,
      releaseAll_append, h₁, Outcome.ok_bind, h₂]
  refine ⟨m₃, hall, ?_⟩
  by_cases hf : m₃.Fresh block CACHELINE
  · right
    rw [memalign, if_pos hf, Outcome.ok_bind] at hins
    have hsize : p.size + elemSize size < 2 ^ 64 := by
      have := h.fits
      have := (elemSize_bounds h0 hsz).2
      omega
    obtain ⟨rest, hpost⟩ := hashInsert_post h.rep.toShape hins
    refine ⟨hf, _, hins, rfl, rfl, hdrop, hpost.maxSize_eq,
      (hashInsert_rep h.rep hsize hins).1, hpost.fits,
      hpost.evictalgo_eq.trans h.lru, ?_⟩
    have hr₃ := hd₂.rep hr₂
    have hl₃ : p₃.evictalgo = .lru := hd₂.fields.2.2.1.trans hl₁
    have hkeep : p₃.lru.map (view (insertMem m₃ block key (elemSize size))) = p₃.lru.map (view m₁) := by
      refine List.map_congr_left ?_
      intro a ha
      have hne : a ≠ block := by
        rintro rfl
        exact hf.not_live (hr₃.live a ((hr₃.lru_mem hl₃ a).mp ha))
      rw [← hd₂.view_eq, view, view, insertMem, Mem.setElem_of_ne _ _ hne]
    have hkept' : p₃.lru.map (view m₁) = (LruCache.trim p.maxSize (elemSize size)
        (es.filter fun x => x.key ≠ key).reverse).1.reverse := by
      rw [← hkept, List.reverse_reverse]
    have hnew : view (insertMem m₃ block key (elemSize size)) block
        = ⟨key, elemSize size, block⟩ := by
      simp [view, insertMem]
    show (if p₃.evictalgo = .lru then block :: p₃.lru else p₃.lru).map
      (view (insertMem m₃ block key (elemSize size))) = _
    rw [if_pos hl₃, List.map_cons, hnew, hkeep, hkept']
    rfl
  · left
    rw [hins]
    simp [memalign, hf]

/-- With `EVICT_LRU` an insert whose first allocation succeeds asks the environment for nothing else. -/
theorem evictLoop_lru_oracle (release : ReleaseValueF) (boundary esize block : ℕ)
    (allocs : List (Option ℕ)) (tscs : List ℕ) (fuel : ℕ) (hl : p.evictalgo = .lru)
    (removed : List Removal) :
    evictLoop release boundary esize fuel (some block :: allocs) tscs p m removed
      = evictLoop release boundary esize fuel [some block] [] p m removed := by
  induction fuel generalizing p m removed with
  | zero => rfl
  | succ fuel ih =>
      rw [evictLoop, evictLoop]
      by_cases hle : p.size ≤ p.maxSize
      · rw [if_pos hle, if_pos hle]
        by_cases hf : m.Fresh block CACHELINE
        · simp [memalign, hf]
        · simp [memalign, hf]
      · rw [if_neg hle, if_neg hle]
        simp only [evictOne, victim, hl]
        by_cases hgt : p.size > esize
        · rw [if_pos hgt, if_pos hgt]
          cases p.lru.getLast? with
          | none => rfl
          | some l =>
              simp only [Outcome.ok_bind]
              cases release.run m l with
              | error x => rfl
              | ok m' => exact ih (show (hashRemove p m l).evictalgo = .lru from hl) _
        · rw [if_neg hgt, if_neg hgt]
          rfl

theorem hashInsert_lru_oracle (release : ReleaseValueF) {es : List LruEntry} (h : LruRep p m es) (key : ℕ)
    (size : ℤ) {o : Oracle} {block : ℕ} (halloc : o.allocs.head? = some (some block)) :
    hashInsert p m key size release o = hashInsert p m key size release ⟨[some block], []⟩ := by
  obtain ⟨allocs, hallocs⟩ := List.head?_eq_some_iff.mp halloc
  obtain ⟨p₁, m₁, old, hold, hd, -⟩ := dropOld_lru release h key
  have hl : p₁.evictalgo = .lru :=
    hd.fields.2.2.1.trans ((hashLookup_table p m key).2.2.2.2.trans h.lru)
  rw [hashInsert_eq, hashInsert_eq, hold, Outcome.ok_bind, Outcome.ok_bind, hallocs]
  exact congrArg (· >>= _) (evictLoop_lru_oracle release _ _ block allocs o.tscs _
    (show ({ p₁ with size := add64 p₁.size (elemSize size) } : Partition).evictalgo = .lru from hl) old)

/-! ### Runs -/

/-- The memory after a call, as a function of the abstract list. -/
def PartCall.specMem (release : ReleaseValueF) (cap : ℕ) (es : List LruEntry) (m : Mem) :
    PartCall → Except Stop Mem
  | .lookup _ => .ok m
  | .insert key size block => do
      let m₂ ← releaseAll release m
        ((LruCache.insert cap ⟨key, elemSize size, block⟩ es).2.map LruCache.Entry.val)
      if m₂.Fresh block CACHELINE then .ok (insertMem m₂ block key (elemSize size))
      else .error .memalignContract

def runSpecMem (release : ReleaseValueF) (cap : ℕ) (es : List LruEntry) (m : Mem) :
    List PartCall → Except Stop Mem
  | [] => .ok m
  | c :: cs => do
      let m ← c.specMem release cap es m
      runSpecMem release cap (c.spec cap es).1 m cs

/-- One call: the concrete and the abstract side return together, or the block offered is not one
that `memalign` could return. -/
theorem PartCall.run_lru (release : ReleaseValueF) {es : List LruEntry} (h : LruRep p m es) (hmax : p.maxSize < 2 ^ 63)
    {c : PartCall} (hok : c.Ok p.maxSize) :
    (∃ p' m', c.specMem release p.maxSize es m = .ok m' ∧
      c.run release p m = .ok (p', m', (c.spec p.maxSize es).2) ∧ p'.maxSize = p.maxSize ∧
      LruRep p' m' (c.spec p.maxSize es).1) ∨
    (c.specMem release p.maxSize es m = .error .memalignContract ∧
      c.run release p m = .error .memalignContract) := by
  cases c with
  | lookup key =>
      obtain ⟨hret, hrep⟩ := hashLookup_lruRep h key
      refine Or.inl ⟨_, m, rfl, ?_, (hashLookup_table p m key).2.2.2.1, hrep⟩
      rw [PartCall.run, hret]
      rfl
  | insert key size block =>
      obtain ⟨m₂, hall, ⟨hf, hins⟩ | ⟨hf, r, hins, rfl, hm, hrem, hmaxr, hrep⟩⟩ :=
        hashInsert_lru release h hmax hok
      · refine Or.inr ⟨?_, ?_⟩
        · rw [PartCall.specMem, hall, Outcome.ok_bind, if_neg hf]
        · rw [PartCall.run, hins, Outcome.error_bind]
      · refine Or.inl ⟨r.p, r.m, ?_, ?_, hmaxr, hrep⟩
        · rw [PartCall.specMem, hall, Outcome.ok_bind, if_pos hf, hm]
        · have hnew : view r.m r.e = ⟨key, elemSize size, r.e⟩ := by
            rw [hm]
            simp [view, insertMem]
          rw [PartCall.run, hins, Outcome.ok_bind, hnew, hrem]
          rfl

theorem runPart_lru (release : ReleaseValueF) {es : List LruEntry} (h : LruRep p m es) (hmax : p.maxSize < 2 ^ 63)
    {calls : List PartCall} (hcalls : ∀ c ∈ calls, c.Ok p.maxSize) :
    (∃ p' m', runSpecMem release p.maxSize es m calls = .ok m' ∧
      runPart release p m calls = .ok (p', m', (runSpec p.maxSize es calls).2) ∧
      LruRep p' m' (runSpec p.maxSize es calls).1) ∨
    (runSpecMem release p.maxSize es m calls = .error .memalignContract ∧
      runPart release p m calls = .error .memalignContract) := by
  induction calls generalizing p m es with
  | nil => exact Or.inl ⟨p, m, rfl, rfl, h⟩
  | cons c cs ih =>
      rcases PartCall.run_lru release h hmax (hcalls c List.mem_cons_self) with
        ⟨p₁, m₁, hmem, hrun, hmax₁, h₁⟩ | ⟨hmem, hrun⟩
      · have hcs : ∀ c' ∈ cs, c'.Ok p₁.maxSize := fun c' hc' =>
          hmax₁ ▸ hcalls c' (List.mem_cons_of_mem c hc')
        rcases ih h₁ (hmax₁ ▸ hmax) hcs with ⟨p', m', hmem', hrun', h'⟩ | ⟨hmem', hrun'⟩
        · rw [hmax₁] at hmem' hrun' h'
          refine Or.inl ⟨p', m', ?_, ?_, h'⟩
          · rw [runSpecMem, hmem, Outcome.ok_bind, hmem']
          · rw [runPart, hrun, Outcome.ok_bind]
            simp only
            rw [hrun']
            rfl
        · rw [hmax₁] at hmem'
          refine Or.inr ⟨?_, ?_⟩
          · rw [runSpecMem, hmem, Outcome.ok_bind, hmem']
          · rw [runPart, hrun, Outcome.ok_bind]
            simp only
            rw [hrun']
            rfl
      · refine Or.inr ⟨?_, ?_⟩
        · rw [runSpecMem, hmem, Outcome.error_bind]
        · rw [runPart, hrun, Outcome.error_bind]

theorem emptyPartition_lruRep {nhash maxSize : ℕ} (m : Mem) (hn : 0 < nhash) :
    LruRep (emptyPartition nhash maxSize .lru) m [] :=
  ⟨emptyPartition_rep m hn, Nat.zero_le _, rfl, rfl⟩

/-- **A partition with `EVICT_LRU` refines the LRU cache.**  For every number of buckets and every
sequence of calls whose element sizes fit, unless an offered block breaks `memalign`'s contract,
all calls return; the elements returned and the elements released, in order, are those of the
abstract cache, and so are the entries at the end.  With any other number of buckets the outcome is
the same. -/
theorem runPart_refines_lru {nhash maxSize : ℕ} (hn : 0 < nhash) (hmax : maxSize < 2 ^ 63)
    (release : ReleaseValueF) (m₀ : Mem) {calls : List PartCall} (hcalls : ∀ c ∈ calls, c.Ok maxSize)
    (halloc : runPart release (emptyPartition nhash maxSize .lru) m₀ calls
      ≠ .error .memalignContract) :
    ∃ p m, runPart release (emptyPartition nhash maxSize .lru) m₀ calls
        = .ok (p, m, (runSpec maxSize [] calls).2) ∧
      p.lru.map (view m) = (runSpec maxSize [] calls).1 ∧ p.lru.Perm p.elems ∧
      ∀ nhash', 0 < nhash' → ∃ p', runPart release (emptyPartition nhash' maxSize .lru) m₀ calls
        = .ok (p', m, (runSpec maxSize [] calls).2) ∧ p'.lru = p.lru := by
  have hempty : ∀ {n : ℕ}, 0 < n → LruRep (emptyPartition n maxSize .lru) m₀ [] := fun hn =>
    emptyPartition_lruRep m₀ hn
  rcases runPart_lru release (hempty hn) hmax hcalls with ⟨p, m, hmem, hrun, h⟩ | ⟨-, hrun⟩
  · refine ⟨p, m, hrun, h.entries, h.rep.lru_perm h.lru, ?_⟩
    intro nhash' hn'
    rcases runPart_lru release (hempty hn') hmax hcalls with ⟨p', m', hmem', hrun', h'⟩ | ⟨hmem', -⟩
    · have hm : m' = m := Except.ok.inj (hmem'.symm.trans hmem)
      subst hm
      refine ⟨p', hrun', ?_⟩
      -- the address is part of the entry, so equal entries are equal elements
      have hlists := congrArg (List.map LruCache.Entry.val) (h'.entries.trans h.entries.symm)
      simpa [List.map_map, Function.comp_def, view] using hlists
    · exact absurd (hmem.symm.trans hmem') (by simp)
  · exact absurd hrun halloc

/-- The scenario of `test2` in small: three elements of 128 bytes in 256, so that the third insert
evicts the element that was not looked up. -/
theorem runPart_refines_lru_evicting : ∃ p m,
    runPart mpRelease (emptyPartition 9 256 .lru) Mem.empty
        [.insert 2 8 64, .insert 4 8 128, .lookup 2, .insert 6 8 192, .lookup 4]
      = .ok (p, m, [⟨some ⟨2, 128, 64⟩, []⟩, ⟨some ⟨4, 128, 128⟩, []⟩, ⟨some ⟨2, 128, 64⟩, []⟩,
          ⟨some ⟨6, 128, 192⟩, [⟨4, 128, 128⟩]⟩, ⟨none, []⟩]) ∧
      p.lru.map (view m) = [⟨6, 128, 192⟩, ⟨2, 128, 64⟩] := by
  have hrun : runPart mpRelease (emptyPartition 9 256 .lru) Mem.empty
      [.insert 2 8 64, .insert 4 8 128, .lookup 2, .insert 6 8 192, .lookup 4] = .ok (_, _, _) := rfl
  have halloc : runPart mpRelease (emptyPartition 9 256 .lru) Mem.empty
      [.insert 2 8 64, .insert 4 8 128, .lookup 2, .insert 6 8 192, .lookup 4]
      ≠ .error .memalignContract := by
    rw [hrun]
    simp
  obtain ⟨p, m, hout, hentries, -⟩ := runPart_refines_lru (by decide) (by decide) mpRelease Mem.empty
    (by decide) halloc
  exact ⟨p, m, hout, hentries⟩

end

end SmpHashTable
