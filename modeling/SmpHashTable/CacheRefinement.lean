import SmpHashTable.Eviction
import SmpHashTable.Lib.WorkingSet
import SmpHashTable.LruRefinement

/-!
# Every server is a cache

The abstract object is one cache for each server (`FillingCache`): an element is found once it has been
marked ready, and the least recently used ones make room.  Clients, buffers, batches, bucket chains,
reference counts and memory do not occur on that side.  In every run of clients and servers in which
handles are given back once, what a server answers and which elements it drops is what its cache
answers and drops, on the operations in the order the server executed them.
-/

namespace SmpHashTable

/-- The element that a response hands out. -/
def hitOf (v : ℕ) : Option ℕ := if v = 0 then none else some (v - sizeofElem)

/-- An executed operation as one on the cache of the server, with what it showed. -/
def Op.seen (resp : Option ℕ) (removed : List Removal) : Op → FillingCache.Op ℕ ℕ × FillingCache.Out ℕ
  | .lookup key => (.lookup key, ⟨resp.bind hitOf, []⟩)
  | .insert key size =>
      (.insert key (elemSize size) (resp.getD 0 - sizeofElem), ⟨none, removed.map Removal.e⟩)
  | .release e => (.publish e, ⟨none, []⟩)

/-- What server `s` executed, in order. -/
def observed (s : ℕ) (log : List Event) : List (FillingCache.Op ℕ ℕ × FillingCache.Out ℕ) :=
  log.filterMap fun
    | .exec s' _ op _ resp removed => if s' = s then some (op.seen resp removed) else none
    | _ => none

/-- The first allocation of an insert succeeds. -/
def Event.Allocated : Event → Prop
  | .exec _ _ (.insert _ _) o _ _ => (o.allocs.headD none).isSome = true
  | _ => True

theorem observed_append (s : ℕ) (log log' : List Event) :
    observed s (log ++ log') = observed s log ++ observed s log' := List.filterMap_append ..

theorem hitOf_valuePtr (e : ℕ) : hitOf (valuePtr e) = some e := by
  simp [hitOf, valuePtr, sizeofElem]

/-- A new count of an element changes no key and no size. -/
theorem Mem.recount (m : Mem) (e rc a : ℕ) :
    ((m.setElem e { m.elem e with refCount := rc }).elem a).key = (m.elem a).key ∧
      ((m.setElem e { m.elem e with refCount := rc }).elem a).size = (m.elem a).size := by
  by_cases ha : a = e
  · subst ha
    rw [Mem.setElem_self]
    exact ⟨rfl, rfl⟩
  · rw [Mem.setElem_of_ne _ _ ha]
    exact ⟨rfl, rfl⟩

/-! ### The abstraction relation -/

/-- Partition `s` of the table is the cache `c`: same entries in the same order of use, and the elements
being filled are those whose mark-ready handle is under way. -/
structure Serves (limit : ℕ) (t : Table) (due : Msg → ℕ) (s : ℕ) (c : FillingCache.Cache ℕ ℕ) : Prop where
  rep : LruRep (t.part s) t.mem c.entries
  share : (t.part s).maxSize = limit
  filling : ∀ e, e ∈ c.filling ↔
    0 < due (.markReady e) ∧ hashGetServer t.nservers (t.mem.elem e).key = s

/-- The entries depend on the keys and sizes of the elements only. -/
theorem LruRep.congr_mem {p : Partition} {m m' : Mem} {es : List LruEntry} (h : LruRep p m es)
    (hkeep : ∀ a ∈ p.elems, m'.Live a ∧ (m'.elem a).key = (m.elem a).key ∧
      (m'.elem a).size = (m.elem a).size) : LruRep p m' es := by
  refine ⟨h.rep.congr_mem (fun a ha => (hkeep a ha).2.1) (fun a ha => (hkeep a ha).2.2)
    fun a ha => (hkeep a ha).1, h.fits, h.lru, ?_⟩
  rw [← h.entries]
  refine List.map_congr_left ?_
  intro a ha
  obtain ⟨-, hkey, hsize⟩ := hkeep a ((h.rep.lru_mem h.lru a).mp ha)
  rw [view, view, hkey, hsize]

/-- The values of the entries are the elements, each once. -/
theorem LruRep.vals_nodup {p : Partition} {m : Mem} {es : List LruEntry} (h : LruRep p m es) :
    (es.map LruCache.Entry.val).Nodup := by
  have hvals : (p.lru.map (view m)).map LruCache.Entry.val = p.lru := by
    rw [List.map_map]
    exact List.map_id p.lru
  rw [← h.entries, hvals]
  exact h.rep.lru_nodup h.lru

section

variable {limit s : ℕ} {t t' : Table} {due due' : Msg → ℕ} {c : FillingCache.Cache ℕ ℕ}

/-- What happens elsewhere leaves a server's cache alone. -/
theorem Serves.keep (h : Serves limit t due s c) (hpart : t'.part s = t.part s)
    (hkeep : ∀ a ∈ (t.part s).elems, t'.mem.Live a ∧ (t'.mem.elem a).key = (t.mem.elem a).key ∧
      (t'.mem.elem a).size = (t.mem.elem a).size)
    (hfill : ∀ e, (0 < due' (.markReady e) ∧ hashGetServer t'.nservers (t'.mem.elem e).key = s) ↔
      0 < due (.markReady e) ∧ hashGetServer t.nservers (t.mem.elem e).key = s) :
    Serves limit t' due' s c := by
  refine ⟨?_, ?_, ?_⟩
  · rw [hpart]
    exact h.rep.congr_mem hkeep
  · rw [hpart]
    exact h.share
  · intro e
    rw [h.filling, hfill]

/-- An element of the partition is ready if and only if it is not being filled. -/
theorem Serves.ready_iff (h : Serves limit t due s c) (hinv : RefInv t due) (hs : s < t.nservers) {e : ℕ}
    (he : e ∈ (t.part s).elems) (hrefs : t.refs due e + 1 < 2 ^ 63) :
    isValueReady t.mem e = true ↔ e ∉ c.filling := by
  have hhas := Table.has_of_mem hs he
  have hpos : 0 < t.refs due e := by
    unfold Table.refs
    rw [if_pos hhas]
    omega
  have hpend : t.Pending due e ↔ e ∈ c.filling := by
    rw [h.filling]
    exact ⟨fun hp => ⟨hp.2, hinv.home s hs e he⟩, fun hp => ⟨hhas, hp.1⟩⟩
  rw [← hpend, ← (hinv.counted.ok e hpos).flag.2 hrefs, isValueReady, decide_eq_true_eq, not_not]

/-! ### What the server itself does -/

/-- **A lookup** is the lookup of the cache. -/
theorem Serves.lookup (h : Serves limit t due s c) (hinv : RefInv t due) (hs : s < t.nservers)
    (hrefs : ∀ e, t.refs due e + 1 < 2 ^ 63)
    (hmark : ∀ e, due' (.markReady e) = due (.markReady e)) {key : ℕ} {o : Oracle} {resp : Option ℕ}
    {removed : List Removal} (hop : serverOp t s o (.lookup key) = .ok (t', resp, removed)) :
    ∃ c', ((Op.lookup key).seen resp removed).1.run limit c = (c', ((Op.lookup key).seen resp removed).2) ∧
      Serves limit t' due' s c' := by
  obtain ⟨hfound, hrep⟩ := hashLookup_lruRep h.rep key
  have hshape := (h.rep.rep).toShape
  obtain ⟨-, -, -, hmax, -⟩ := hashLookup_table (t.part s) t.mem key
  -- the partition afterwards, and any memory that differs in counts only
  have hserves : ∀ m : Mem, (∀ a, m.Live a ↔ t.mem.Live a) →
      (∀ a, (m.elem a).key = (t.mem.elem a).key ∧ (m.elem a).size = (t.mem.elem a).size) →
      Serves limit (t.setPart s (hashLookup (t.part s) t.mem key).2 m) due' s
        (FillingCache.lookup key c).1 := by
    intro m hlive helem
    refine ⟨?_, ?_, ?_⟩
    · rw [Table.setPart_part_self]
      refine hrep.congr_mem fun a ha => ⟨(hlive a).mpr (hrep.rep.live a ha), helem a⟩
    · rw [Table.setPart_part_self, hmax]
      exact h.share
    · intro e
      show e ∈ c.filling ↔ 0 < due' (.markReady e) ∧ hashGetServer t.nservers (m.elem e).key = s
      rw [hmark, (helem e).1]
      exact h.filling e
  have hhit : ∀ v : Option ℕ, ((LruCache.lookup key c.entries).1.map LruCache.Entry.val).filter
      (· ∉ c.filling) = v → resp.bind hitOf = v →
      ((Op.lookup key).seen resp removed).1.run limit c
        = ((FillingCache.lookup key c).1, ((Op.lookup key).seen resp removed).2) := by
    rintro v hv hresp
    rw [Op.seen, FillingCache.Op.run, FillingCache.lookup, hresp, hv]
  rw [← hfound] at hhit
  simp only [serverOp] at hop
  split at hop
  · next e he =>
    have hmem := ((hashLookup_eq_some hshape key e).mp he).1
    have hready := h.ready_iff hinv hs hmem (hrefs e)
    rw [he] at hhit
    split at hop
    · next hr =>
      cases hop
      refine ⟨_, hhit (some e) ?_ (hitOf_valuePtr e), hserves _ (fun _ => Iff.rfl) (t.mem.recount e _)⟩
      simp [view, hready.mp hr]
    · next hr =>
      cases hop
      refine ⟨_, hhit none ?_ rfl, hserves t.mem (fun _ => Iff.rfl) fun _ => ⟨rfl, rfl⟩⟩
      simpa [view] using not_not.mp fun hnot => hr (hready.mpr hnot)
  · next he =>
    cases hop
    rw [he] at hhit
    exact ⟨_, hhit none rfl rfl, hserves t.mem (fun _ => Iff.rfl) fun _ => ⟨rfl, rfl⟩⟩

/-- **An insert** is the insert of the cache, with the new element being filled. -/
theorem Serves.insert (h : Serves limit t due s c) (hinv : RefInv t due) (hs : s < t.nservers)
    (hlimit : limit < 2 ^ 63) {key : ℕ} {size : ℤ} {o : Oracle} {resp : Option ℕ} {removed : List Removal}
    (h0 : 0 ≤ size) (hsize : size < 2 ^ 31) (halloc : (o.allocs.headD none).isSome = true)
    (hkey : hashGetServer t.nservers key = s)
    (hdue : ∀ r, hashInsert (t.part s) t.mem key size mpRelease o = .ok r →
      ∀ e, due' (.markReady e) = due (.markReady e) + if e = r.e then 1 else 0)
    (hop : serverOp t s o (.insert key size) = .ok (t', resp, removed)) :
    ((Op.insert key size).seen resp removed).1.New limit c ∧
      ∃ c', ((Op.insert key size).seen resp removed).1.run limit c
        = (c', ((Op.insert key size).seen resp removed).2) ∧ Serves limit t' due' s c' := by
  obtain ⟨r, hrun, hret⟩ := Outcome.bind_ok.mp hop
  cases hret
  have hbounds := (elemSize_bounds h0 hsize).2
  have hfits := h.rep.fits
  have hshare := h.share
  -- an element that does not fit makes the code abort
  have hfit : elemSize size ≤ (t.part s).maxSize := by
    by_contra hgt
    rw [hashInsert_aborts mpRelease h.rep.rep h.rep.lru o (by omega) (Nat.lt_of_not_le hgt)] at hrun
    cases hrun
  obtain ⟨rest, hpost⟩ := hashInsert_post (hinv.shape s hs) hrun
  have hhead : ∃ block, o.allocs.head? = some (some block) := by
    cases hal : o.allocs with
    | nil =>
        rw [hal] at halloc
        cases halloc
    | cons x xs =>
        rw [hal] at halloc
        obtain ⟨block, rfl⟩ := Option.isSome_iff_exists.mp halloc
        exact ⟨block, rfl⟩
  obtain ⟨block, hblock⟩ := hhead
  have hrun' := hrun
  rw [hashInsert_lru_oracle mpRelease h.rep key size hblock] at hrun'
  have hcall : (PartCall.insert key size block).Ok (t.part s).maxSize := ⟨h0, hsize, hfit⟩
  obtain ⟨m₂, -, ⟨-, herror⟩ | ⟨-, r', hok, rfl, -, hremoved, -, hrep⟩⟩ :=
    hashInsert_lru mpRelease h.rep (by omega) hcall
  · rw [hrun'] at herror
    cases herror
  obtain rfl : r' = r := Except.ok.inj (hok.symm.trans hrun')
  rw [hshare] at hremoved hrep
  have helem := r'.m.recount r'.e (DATA_READY_MASK ||| 2)
  have hval : (some (valuePtr r'.e)).getD 0 - sizeofElem = r'.e := Nat.add_sub_cancel ..
  have hnew : (FillingCache.Op.insert key (elemSize size) r'.e).New limit c := by
    refine ⟨?_, fun hin => ?_⟩
    · exact hrep.vals_nodup
    · have hpos := ((h.filling r'.e).mp hin).1
      rw [(hinv.insert_fresh hs hrun).2] at hpos
      exact absurd hpos (Nat.lt_irrefl 0)
  refine ⟨by rw [Op.seen, hval]; exact hnew, (FillingCache.insert limit key (elemSize size) r'.e c).1, ?_, ?_,
    ?_, ?_⟩
  · rw [Op.seen, hval, FillingCache.Op.run, FillingCache.insert, ← hremoved, List.map_map]
    rfl
  · rw [Table.setPart_part_self]
    exact hrep.congr_mem fun a ha => ⟨hrep.rep.live a ha, helem a⟩
  · rw [Table.setPart_part_self, hpost.maxSize_eq]
    exact hshare
  · intro e
    show e ∈ r'.e :: c.filling ↔
      0 < due' (.markReady e) ∧ hashGetServer t.nservers ((r'.m.setElem r'.e _).elem e).key = s
    rw [(helem e).1, hdue r' hrun e, List.mem_cons, h.filling]
    by_cases he : e = r'.e
    · subst he
      rw [hpost.key_eq, if_pos rfl]
      exact ⟨fun _ => ⟨Nat.succ_pos _, hkey⟩, fun _ => Or.inl rfl⟩
    · rw [hpost.key_of_ne e he, if_neg he, Nat.add_zero, or_iff_right he]

/-- **A release** publishes the element if it gives back the handle of its insert, and changes nothing
otherwise. -/
theorem Serves.release (h : Serves limit t due s c) (hinv : RefInv t due) (hinv' : RefInv t' due')
    (hs : s < t.nservers) {e : ℕ} {m : Msg} (hm : m = .release e ∨ m = .markReady e) (hpos : 0 < due m)
    (hdue : ∀ x, x.isRequest = false → due' x + (if m = x then 1 else 0) = due x) {o : Oracle}
    {resp : Option ℕ} {removed : List Removal}
    (hop : serverOp t s o (.release e) = .ok (t', resp, removed)) :
    ∃ c', ((Op.release e).seen resp removed).1.run limit c
        = (c', ((Op.release e).seen resp removed).2) ∧ Serves limit t' due' s c' := by
  obtain ⟨mem, hrun, hret⟩ := Outcome.bind_ok.mp hop
  cases hret
  have hframe := storeRefCount_frame hrun
  refine ⟨(FillingCache.publish e c).1, rfl, ?_, h.share, ?_⟩
  · exact h.rep.congr_mem fun a ha => ⟨(hinv'.shape s hs).live a ha, hframe.key a, hframe.size a⟩
  · intro a
    show a ∈ c.filling.filter (· ≠ e) ↔
      0 < due' (.markReady a) ∧ hashGetServer t.nservers (mem.elem a).key = s
    rw [List.mem_filter, h.filling, hframe.key, decide_eq_true_eq]
    have hmark := hdue (.markReady a) rfl
    by_cases hae : a = e
    · -- the element is not being filled any more
      subst hae
      have hone := hinv.marking a
      have hearly := hinv.early a
      have hnone : due' (.markReady a) = 0 := by
        rcases hm with rfl | rfl
        · simp at hmark
          omega
        · simp at hmark
          omega
      rw [hnone]
      exact ⟨fun hand => absurd rfl hand.2, fun hand => absurd hand.1 (Nat.lt_irrefl 0)⟩
    · have hne : m ≠ .markReady a := by
        rintro rfl
        rcases hm with hm | hm
        · cases hm
        · exact hae (Msg.markReady.inj hm)
      rw [if_neg hne, Nat.add_zero] at hmark
      rw [hmark]
      exact and_iff_left hae

/-! ### What another server does -/

/-- **A server leaves the others' caches alone.** -/
theorem Serves.other (h : Serves limit t due s c) (hinv : RefInv t due) (hinv' : RefInv t' due')
    (hs : s < t.nservers) {s' : ℕ} (hs' : s' < t.nservers) (hne : s ≠ s') {op : Op} {o : Oracle}
    {resp : Option ℕ} {removed : List Removal} (hop : serverOp t s' o op = .ok (t', resp, removed))
    (hmark : ∀ e, due' (.markReady e) = due (.markReady e) ∨
      hashGetServer t.nservers (t'.mem.elem e).key = s') : Serves limit t' due' s c := by
  obtain ⟨-, hn⟩ := serverOp_resp hop
  have hlive : ∀ a ∈ (t'.part s).elems, t'.mem.Live a := (hinv'.shape s (hn ▸ hs)).live
  have hkeep : t'.part s = t.part s ∧ ∀ a, a ∈ (t.part s).elems ∨ 0 < due (.markReady a) →
      (t'.mem.elem a).key = (t.mem.elem a).key ∧ (a ∈ (t.part s).elems →
        (t'.mem.elem a).size = (t.mem.elem a).size) := by
    cases op with
    | lookup key =>
        simp only [serverOp] at hop
        split at hop
        · next e _ =>
          split at hop
          · cases hop
            exact ⟨Table.setPart_part_of_ne _ _ hne,
              fun a _ => ⟨(t.mem.recount e _ a).1, fun _ => (t.mem.recount e _ a).2⟩⟩
          · cases hop
            exact ⟨Table.setPart_part_of_ne _ _ hne, fun _ _ => ⟨rfl, fun _ => rfl⟩⟩
        · cases hop
          exact ⟨Table.setPart_part_of_ne _ _ hne, fun _ _ => ⟨rfl, fun _ => rfl⟩⟩
    | insert key size =>
        obtain ⟨r, hrun, hret⟩ := Outcome.bind_ok.mp hop
        cases hret
        obtain ⟨rest, hpost⟩ := hashInsert_post (hinv.shape s' hs') hrun
        obtain ⟨-, hfresh⟩ := hinv.insert_fresh hs' hrun
        refine ⟨Table.setPart_part_of_ne _ _ hne, ?_⟩
        intro a ha
        have hae : a ≠ r.e := by
          rintro rfl
          rcases ha with ha | ha
          · exact (hinv.insert_other hs' hpost hs hne ha).2 rfl
          · omega
        show ((r.m.setElem r.e _).elem a).key = _ ∧ (_ → ((r.m.setElem r.e _).elem a).size = _)
        rw [Mem.setElem_of_ne _ _ hae]
        refine ⟨hpost.key_of_ne a hae, fun hin => ?_⟩
        rw [hpost.elem_of_notMem a (hinv.insert_other hs' hpost hs hne hin).1 hae]
    | release e =>
        obtain ⟨m, hrun, hret⟩ := Outcome.bind_ok.mp hop
        cases hret
        have hframe := storeRefCount_frame hrun
        exact ⟨rfl, fun a _ => ⟨hframe.key a, fun _ => hframe.size a⟩⟩
  obtain ⟨hpart, hkeep⟩ := hkeep
  refine h.keep hpart (fun a ha => ⟨hlive a (hpart ▸ ha), (hkeep a (Or.inl ha)).1,
    (hkeep a (Or.inl ha)).2 ha⟩) ?_
  intro e
  rw [hn]
  constructor
  · rintro ⟨hpos, hhome⟩
    have hsame := (hmark e).resolve_right fun heq => hne (hhome.symm.trans heq)
    rw [hsame] at hpos
    rw [(hkeep e (Or.inr hpos)).1] at hhome
    exact ⟨hpos, hhome⟩
  · rintro ⟨hpos, hhome⟩
    rw [← (hkeep e (Or.inr hpos)).1] at hhome
    have hsame := (hmark e).resolve_right fun heq => hne (hhome.symm.trans heq)
    rw [← hsame] at hpos
    exact ⟨hpos, hhome⟩

end

/-! ### One event -/

/-- Every server is a cache that shows what the log says. -/
def Cached (limit N : ℕ) (f : Fifo) (log : List Event) : Prop :=
  ∀ s < f.table.nservers, ∃ c, FillingCache.Explains limit (observed s log) c ∧
    Serves limit f.table (f.due N) s c

section

variable {limit N N' : ℕ} {f f' : Fifo} {log : List Event}

theorem Cached.congr (h : Cached limit N f log) {e : Event} (htable : f'.table = f.table)
    (hdue : ∀ a, f'.due N' (.markReady a) = f.due N (.markReady a))
    (hobs : ∀ s, observed s [e] = []) : Cached limit N' f' (log ++ [e]) := by
  intro s hs
  rw [htable] at hs
  obtain ⟨c, hc, hserves⟩ := h s hs
  refine ⟨c, ?_, ?_⟩
  · rw [observed_append, hobs, List.append_nil]
    exact hc
  · have hpart : f'.table.part s = f.table.part s := by rw [htable]
    refine hserves.keep hpart (fun a ha => ?_) (fun a => ?_)
    · rw [htable]
      exact ⟨hserves.rep.rep.live a ha, rfl, rfl⟩
    · rw [htable, hdue]

/-- A mark-ready handle appears or goes only for an element of the server that executes. -/
theorem Settled.marks_home (hset : Settled N f) {s c : ℕ} {op : Op} {o : Oracle} {resp : Option ℕ}
    {removed : List Removal} (hc : c < N) (hs : s < f.table.nservers)
    (happly : f.apply (.exec s c op o resp removed) = some f') (e : ℕ) :
    f'.due N (.markReady e) = f.due N (.markReady e) ∨
      hashGetServer f.table.nservers (f'.table.mem.elem e).key = s := by
  obtain ⟨m, rest, t, htodo, hop, hm, rfl⟩ := Fifo.apply_exec happly
  obtain ⟨-, hn⟩ := serverOp_resp hop
  have hroute := hset.routed c s m (by rw [htodo]; exact List.mem_cons_self)
  have hx := Fifo.due_exec (h := .markReady e) hc hs resp hn htodo
  cases m with
  | lookup key =>
      have hhandle : resp.bind (handleOf (.lookup key)) ≠ some (.markReady e) := by
        cases resp with
        | none => simp
        | some v => by_cases hv : v = 0 <;> simp [handleOf, hv]
      rw [if_neg (by simp), if_neg hhandle] at hx
      exact Or.inl hx
  | insert key size =>
      subst hm
      obtain ⟨r, hrun, hret⟩ := Outcome.bind_ok.mp hop
      cases hret
      by_cases he : r.e = e
      · right
        subst he
        obtain ⟨rest, hpost⟩ := hashInsert_post (hset.refs.shape s hs) hrun
        show hashGetServer f.table.nservers ((r.m.setElem r.e _).elem r.e).key = s
        rw [Mem.setElem_self, hpost.key_eq]
        exact hroute.symm
      · left
        simpa [handleOf, valuePtr, sizeofElem, he] using hx
  | release a =>
      subst hm
      obtain ⟨mem, hrun, hret⟩ := Outcome.bind_ok.mp hop
      cases hret
      left
      simpa using hx
  | markReady a =>
      subst hm
      obtain ⟨mem, hrun, hret⟩ := Outcome.bind_ok.mp hop
      cases hret
      by_cases he : a = e
      · right
        subst he
        show hashGetServer f.table.nservers (mem.elem a).key = s
        rw [(storeRefCount_frame hrun).key]
        exact hroute.symm
      · left
        simpa [he] using hx

/-- What a server executes, its own cache does. -/
theorem Serves.exec {s c : ℕ} {cache : FillingCache.Cache ℕ ℕ}
    (h : Serves limit f.table (f.due N) s cache) (hset : Settled N f) (hset' : Settled N f')
    (hlimit : limit < 2 ^ 63) (hrefs : ∀ e, f.refs N e + 1 < 2 ^ 63) {op : Op} {o : Oracle}
    {resp : Option ℕ} {removed : List Removal} (hc : c < N) (hs : s < f.table.nservers)
    (hsized : (Event.exec s c op o resp removed).Sized)
    (halloc : (Event.exec s c op o resp removed).Allocated)
    (happly : f.apply (.exec s c op o resp removed) = some f') :
    (op.seen resp removed).1.New limit cache ∧
      ∃ cache', (op.seen resp removed).1.run limit cache = (cache', (op.seen resp removed).2) ∧
        Serves limit f'.table (f'.due N) s cache' := by
  obtain ⟨m, rest, t, htodo, hop, hm, rfl⟩ := Fifo.apply_exec happly
  obtain ⟨-, hn⟩ := serverOp_resp hop
  have hhead : m ∈ (f.session c).todo s := by rw [htodo]; exact List.mem_cons_self
  have hroute := hset.routed c s m hhead
  have hdue := fun x : Msg => Fifo.due_exec (h := x) hc hs resp hn htodo
  cases m with
  | lookup key =>
      subst hm
      refine ⟨trivial, h.lookup hset.refs hs hrefs (fun e => ?_) hop⟩
      have hx := hdue (.markReady e)
      have hhandle : resp.bind (handleOf (.lookup key)) ≠ some (.markReady e) := by
        cases resp with
        | none => simp
        | some v => by_cases hv : v = 0 <;> simp [handleOf, hv]
      rw [if_neg (by simp), if_neg hhandle] at hx
      exact hx
  | insert key size =>
      subst hm
      refine h.insert hset.refs hs hlimit hsized.1 hsized.2 halloc hroute.symm ?_ hop
      intro r hrun e
      obtain ⟨r', hrun', hret⟩ := Outcome.bind_ok.mp hop
      obtain rfl : r = r' := Except.ok.inj (hrun.symm.trans hrun')
      cases hret
      simpa [handleOf, valuePtr, sizeofElem, eq_comm] using hdue (.markReady e)
  | release e =>
      subst hm
      refine ⟨trivial, h.release hset.refs hset'.refs hs (Or.inl rfl) (Fifo.due_pos_of_todo hc hs hhead)
        (fun x _ => ?_) hop⟩
      obtain ⟨mem, hrun, hret⟩ := Outcome.bind_ok.mp hop
      cases hret
      simpa using hdue x
  | markReady e =>
      subst hm
      refine ⟨trivial, h.release hset.refs hset'.refs hs (Or.inr rfl) (Fifo.due_pos_of_todo hc hs hhead)
        (fun x _ => ?_) hop⟩
      obtain ⟨mem, hrun, hret⟩ := Outcome.bind_ok.mp hop
      cases hret
      simpa using hdue x

/-- An execution at a server moves its cache and no other. -/
theorem Cached.exec (h : Cached limit N f log) (hset : Settled N f) (hset' : Settled N f')
    (hlimit : limit < 2 ^ 63) (hrefs : ∀ e, f.refs N e + 1 < 2 ^ 63) {s c : ℕ} {op : Op} {o : Oracle}
    {resp : Option ℕ} {removed : List Removal} (hc : c < N) (hs : s < f.table.nservers)
    (hsized : (Event.exec s c op o resp removed).Sized)
    (halloc : (Event.exec s c op o resp removed).Allocated)
    (happly : f.apply (.exec s c op o resp removed) = some f') :
    Cached limit N f' (log ++ [.exec s c op o resp removed]) := by
  have hn := Fifo.apply_nservers happly
  intro s' hs'
  replace hs' : s' < f.table.nservers := hn ▸ hs'
  obtain ⟨cache, hexplains, hserves⟩ := h s' hs'
  rw [observed_append]
  by_cases heq : s' = s
  · subst heq
    obtain ⟨hnew, cache', hrun, hserves'⟩ :=
      hserves.exec hset hset' hlimit hrefs hc hs' hsized halloc happly
    have hthis : observed s' [.exec s' c op o resp removed] = [op.seen resp removed] := by
      simp [observed]
    rw [hthis]
    exact ⟨cache', hexplains.concat hnew hrun, hserves'⟩
  · have hne : ¬ s = s' := fun he => heq he.symm
    have hthis : observed s' [.exec s c op o resp removed] = [] := by
      simp [observed, hne]
    rw [hthis, List.append_nil]
    obtain ⟨m, rest, t, htodo, hop, hm, rfl⟩ := Fifo.apply_exec happly
    exact ⟨cache, hexplains, hserves.other hset.refs hset'.refs hs' hs heq hop
      (hset.marks_home hc hs happly)⟩

/-- What does not execute an operation moves no cache. -/
theorem Cached.skip (h : Cached limit N f log) (hset : Settled N f) {ev : Event} (hev : ev.Proper N f)
    (happly : f.apply ev = some f') (hobs : ∀ s, observed s [ev] = []) :
    Cached limit N f' (log ++ [ev]) := by
  cases ev with
  | issue c s m =>
      obtain ⟨-, heq⟩ := Fifo.apply_issue happly
      refine h.congr (by rw [heq]; rfl) (fun a => ?_) hobs
      exact hset.due_issue hev.1 hev.2 happly _ rfl
  | exec s c op o resp removed =>
      have hnil := hobs s
      simp [observed] at hnil
  | read c s v =>
      obtain ⟨x, hx, heq⟩ := Fifo.apply_read happly
      refine h.congr (by rw [heq]; rfl) (fun a => ?_) hobs
      exact Fifo.due_read hev (hset.lt_of_read hx) happly
  | got c v =>
      obtain ⟨a, x, -, -, heq⟩ := Fifo.apply_got happly
      exact h.congr (by rw [heq]; rfl) (fun a => Fifo.due_got hev happly) hobs
  | doallDone c queries values =>
      obtain ⟨-, -, -, -, rfl⟩ := Fifo.apply_doallDone happly
      exact h.congr rfl (fun _ => rfl) hobs

end

/-! ### Whole runs -/

theorem cached_init {maxSize nservers : ℕ} : Cached (maxSize / nservers) 0
    (Fifo.init (createHashTable maxSize nservers .lru)) [] := by
  intro s hs
  have hge := initNhash_ge (maxSize / nservers) nservers (lt_of_le_of_lt (Nat.zero_le s) hs)
  refine ⟨.empty, FillingCache.explains_nil _, emptyPartition_lruRep Mem.empty (by omega), rfl, ?_⟩
  intro e
  exact ⟨fun he => (by cases he), fun he => absurd he.1 (Nat.lt_irrefl 0)⟩

/-- The invariant of the runs: the handles are right, and while all calls are good ones the servers are
caches. -/
structure CacheInv (limit nservers N : ℕ) (f : Fifo) (log : List Event) : Prop extends HandleInv N f log where
  nservers_eq : f.table.nservers = nservers
  cached : (∀ e ∈ log, e.Sized ∧ e.Allocated) → log.length + 2 < 2 ^ 63 → Cached limit N f log

section

variable {limit nservers N : ℕ} {f f' : Fifo} {log : List Event}

theorem CacheInv.create (h : CacheInv limit nservers N f log) : CacheInv limit nservers (N + 1) f log := by
  have hdue : ∀ m, f.due (N + 1) m = f.due N m := fun m => Fifo.due_succ (h.settled.unborn N le_rfl)
  refine ⟨h.toHandleInv.create, h.nservers_eq, ?_⟩
  intro hcalls hlen s hs
  obtain ⟨c, hc, hserves⟩ := h.cached hcalls hlen s hs
  exact ⟨c, hc, hserves.keep rfl (fun a ha => ⟨hserves.rep.rep.live a ha, rfl, rfl⟩)
    fun e => by rw [hdue]⟩

theorem CacheInv.apply (h : CacheInv limit nservers N f log) (hlimit : limit < 2 ^ 63) {ev : Event}
    (hev : ev.Proper N f) (happly : f.apply ev = some f') :
    CacheInv limit nservers N f' (log ++ [ev]) := by
  have hset' := h.settled.apply hev happly
  refine ⟨h.toHandleInv.apply hev happly, (Fifo.apply_nservers happly).trans h.nservers_eq, ?_⟩
  intro hcalls hlen
  rw [List.length_append, List.length_singleton] at hlen
  have hold := h.cached (fun x hx => hcalls x (List.mem_append_left _ hx)) (by omega)
  have hthis := hcalls ev (List.mem_append_right _ List.mem_cons_self)
  cases ev with
  | exec s c op o resp removed =>
      exact hold.exec h.settled hset' hlimit (h.refs_lt (by omega)) hev.1 hev.2 hthis.1 hthis.2 happly
  | issue c s m => exact hold.skip h.settled hev happly fun _ => rfl
  | read c s v => exact hold.skip h.settled hev happly fun _ => rfl
  | got c v => exact hold.skip h.settled hev happly fun _ => rfl
  | doallDone c queries values => exact hold.skip h.settled hev happly fun _ => rfl

end

theorem disciplined_cached {maxSize nservers : ℕ} (hmax : maxSize / nservers < 2 ^ 63) {st : Sys}
    {log : List Event} (h : Sys.Disciplined (createHashTable maxSize nservers .lru) st log) :
    ∃ f, (Fifo.init (createHashTable maxSize nservers .lru)).replay log = some f ∧ Coupled st f ∧
      CacheInv (maxSize / nservers) nservers st.nclients f log :=
  h.history (Q := CacheInv (maxSize / nservers) nservers)
    ⟨handleInv_init maxSize nservers .lru, rfl, fun _ _ => cached_init⟩
    (fun h => h.create) fun h hev happly => h.apply hmax hev happly

/-- **Message passing implements one cache per server.**  In every run in which handles are given back
once, for any number of clients and servers and any interleaving of their steps: what a server answered
and which elements it dropped is what its cache answers and drops on the same operations, and the
entries of its partition, in their order of use, are those of the cache. -/
theorem disciplined_refines_cache {maxSize nservers : ℕ} (hmax : maxSize / nservers < 2 ^ 63) {st : Sys}
    {log : List Event} (h : Sys.Disciplined (createHashTable maxSize nservers .lru) st log)
    (hcalls : ∀ e ∈ log, e.Sized ∧ e.Allocated) (hlen : log.length + 2 < 2 ^ 63) {s : ℕ}
    (hs : s < nservers) :
    ∃ c, FillingCache.Explains (maxSize / nservers) (observed s log) c ∧
      (st.table.part s).lru.map (view st.table.mem) = c.entries ∧
      (st.table.part s).lru.Perm (st.table.part s).elems := by
  obtain ⟨f, -, hcoup, hinv⟩ := disciplined_cached hmax h
  obtain ⟨c, hc, hserves⟩ := hinv.cached hcalls hlen s (hinv.nservers_eq ▸ hs)
  rw [← hcoup.table]
  exact ⟨c, hc, hserves.rep.entries, hserves.rep.rep.lru_perm hserves.rep.lru⟩

instance Event.decidableSized : (e : Event) → Decidable e.Sized
  | .exec _ _ (.insert _ _) _ _ _ => inferInstanceAs (Decidable (_ ∧ _))
  | .exec _ _ (.lookup _) _ _ _ => isTrue trivial
  | .exec _ _ (.release _) _ _ _ => isTrue trivial
  | .issue _ _ _ => isTrue trivial
  | .read _ _ _ => isTrue trivial
  | .got _ _ => isTrue trivial
  | .doallDone _ _ _ => isTrue trivial

instance Event.decidableAllocated : (e : Event) → Decidable e.Allocated
  | .exec _ _ (.insert _ _) _ _ _ => inferInstanceAs (Decidable (_ = _))
  | .exec _ _ (.lookup _) _ _ _ => isTrue trivial
  | .exec _ _ (.release _) _ _ _ => isTrue trivial
  | .issue _ _ _ => isTrue trivial
  | .read _ _ _ => isTrue trivial
  | .got _ _ => isTrue trivial
  | .doallDone _ _ _ => isTrue trivial

/-- An insert, lookups before and after it is marked ready, and an insert that takes its place, in a
table with room for one element. -/
def evictRun : List Act := List.flatten [
  [.create (fun _ => 0) (fun _ => 0), .start fun _ _ => 0],
  .call 0 (.insert 5 8) :: List.replicate 3 (.client 0),
  .call 0 .getNext :: List.replicate 7 (.client 0),
  List.replicate 13 (.server 0 ⟨[some 64], []⟩), List.replicate 2 (.client 0),
  .call 0 (.lookup 5) :: List.replicate 3 (.client 0),
  .call 0 (.markReady 128) :: List.replicate 7 (.client 0),
  .call 0 (.lookup 5) :: List.replicate 3 (.client 0),
  .call 0 (.insert 6 8) :: List.replicate 3 (.client 0),
  .call 0 .getNext :: List.replicate 9 (.client 0),
  List.replicate 40 (.server 0 ⟨[some 256], []⟩)]

theorem disciplined_refines_cache_evicting : ∃ st log c,
    Sys.Disciplined (createHashTable 128 1 .lru) st log ∧
      observed 0 log = [(.insert 5 128 64, ⟨none, []⟩), (.lookup 5, ⟨none, []⟩),
        (.publish 64, ⟨none, []⟩), (.lookup 5, ⟨some 64, []⟩), (.insert 6 128 256, ⟨none, [64]⟩)] ∧
      FillingCache.Explains 128 (observed 0 log) c ∧
      (st.table.part 0).lru.map (view st.table.mem) = c.entries := by
  have hval : (Runs.run Sys.step
      (fun st log a => a.Ok st ∧ a.Returns (createHashTable 128 1 .lru) log) evictRun
      (Sys.init (createHashTable 128 1 .lru)) []).map
        (fun r => (observed 0 r.2, r.2.length, decide (∀ e ∈ r.2, e.Sized ∧ e.Allocated)))
      = some ([(.insert 5 128 64, ⟨none, []⟩), (.lookup 5, ⟨none, []⟩),
        (.publish 64, ⟨none, []⟩), (.lookup 5, ⟨some 64, []⟩), (.insert 6 128 256, ⟨none, [64]⟩)],
        12, true) := by
    decide +kernel
  obtain ⟨⟨st, log⟩, hrun, heq⟩ := Option.map_eq_some_iff.mp hval
  have hreach : Sys.Disciplined (createHashTable 128 1 .lru) st log := Runs.Reach.start.run hrun
  obtain ⟨hobs, heq⟩ := Prod.mk.inj heq
  obtain ⟨hlen, hgood⟩ := Prod.mk.inj heq
  simp only at hobs hlen
  obtain ⟨c, hc, hentries, -⟩ := disciplined_refines_cache (by decide) hreach
    (of_decide_eq_true hgood) (by rw [hlen]; decide) Nat.one_pos
  exact ⟨st, log, c, hreach, hobs, hc, hentries⟩

/-! ### The working set -/

end SmpHashTable
