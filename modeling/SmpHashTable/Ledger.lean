import SmpHashTable.References

/-!
# What a lookup finds

The ledger is a ghost state that follows the operations the servers execute: for every key the element
of the last insert, while it is in the table, and whether it has been marked ready.  The table is
always what the ledger says, so a lookup finds the element of the last insert of its key, if that has
been marked ready and not been evicted.
-/

namespace SmpHashTable

/-- The element of an insert, and whether its mark-ready message has been executed. -/
structure Entry where
  elem : ℕ
  marked : Bool
  deriving DecidableEq

/-- The last insert of every key, until its element is removed. -/
abbrev Ledger := ℕ → Option Entry

namespace Ledger

def empty : Ledger := fun _ => none

/-- An insert of `key` makes the element `e` and removes others. -/
def insert (l : Ledger) (removed : List ℕ) (key e : ℕ) : Ledger := fun k =>
  if k = key then some ⟨e, false⟩ else (l k).filter fun x => x.elem ∉ removed

def mark (l : Ledger) (e : ℕ) : Ledger := fun k =>
  (l k).map fun x => if x.elem = e then { x with marked := true } else x

/-- The ledger after an event. -/
def follow (f : Fifo) (l : Ledger) : Event → Ledger
  | .exec s c _ _ resp removed =>
      match (f.session c).todo s, resp with
      | .insert key _ :: _, some v => l.insert (removed.map Removal.e) key (v - sizeofElem)
      | .markReady e :: _, _ => l.mark e
      | _, _ => l
  | _ => l

end Ledger

/-- The ledger lists the elements of the table under their keys. -/
def LedgerInv (t : Table) (due : Msg → ℕ) (l : Ledger) : Prop :=
  ∀ k x, l k = some x ↔ t.Has x.elem ∧ (t.mem.elem x.elem).key = k ∧
    (x.marked = true ↔ due (.markReady x.elem) = 0)

section

variable {t t' : Table} {due due' : Msg → ℕ} {l : Ledger}

theorem LedgerInv.congr (h : LedgerInv t due l) (hhas : ∀ e, t'.Has e ↔ t.Has e)
    (hkey : ∀ e, t.Has e → (t'.mem.elem e).key = (t.mem.elem e).key)
    (hmark : ∀ e, t.Has e → (due' (.markReady e) = 0 ↔ due (.markReady e) = 0)) :
    LedgerInv t' due' l := by
  intro k x
  rw [h k x, hhas]
  constructor
  · rintro ⟨hin, hk, hm⟩
    exact ⟨hin, by rw [hkey _ hin]; exact hk, by rw [hmark _ hin]; exact hm⟩
  · rintro ⟨hin, hk, hm⟩
    exact ⟨hin, by rw [← hkey _ hin]; exact hk, by rw [← hmark _ hin]; exact hm⟩

theorem Table.has_congr (hn : t'.nservers = t.nservers)
    (helems : ∀ s, (t'.part s).elems = (t.part s).elems) (e : ℕ) : t'.Has e ↔ t.Has e := by
  unfold Table.Has
  rw [hn]
  simp only [helems]

/-- An element is marked ready. -/
theorem LedgerInv.mark (h : LedgerInv t due l) {e : ℕ} (hhas : ∀ a, t'.Has a ↔ t.Has a)
    (hkey : ∀ a, (t'.mem.elem a).key = (t.mem.elem a).key) (hself : due' (.markReady e) = 0)
    (hother : ∀ a, a ≠ e → due' (.markReady a) = due (.markReady a)) :
    LedgerInv t' due' (l.mark e) := by
  intro k x
  rw [hhas, hkey]
  simp only [Ledger.mark, Option.map_eq_some_iff]
  constructor
  · rintro ⟨y, hy, rfl⟩
    obtain ⟨hin, hk, hm⟩ := (h k y).mp hy
    by_cases hye : y.elem = e
    · rw [if_pos hye]
      exact ⟨hin, hk, by simp [hye, hself]⟩
    · rw [if_neg hye]
      exact ⟨hin, hk, by rw [hother _ hye]; exact hm⟩
  · rintro ⟨hin, hk, hm⟩
    by_cases hxe : x.elem = e
    · -- whatever the mark was, it is set now
      refine ⟨⟨x.elem, decide (due (.markReady x.elem) = 0)⟩, (h k _).mpr ⟨hin, hk, by simp⟩, ?_⟩
      rw [if_pos hxe]
      have hmarked : x.marked = true := hm.mpr (by rw [hxe]; exact hself)
      cases x
      simp_all
    · refine ⟨x, (h k x).mpr ⟨hin, hk, by rw [← hother _ hxe]; exact hm⟩, if_neg hxe⟩

/-- An insert. -/
theorem LedgerInv.insert (h : LedgerInv t due l) (hinv : RefInv t due) {s key esize : ℕ} {r : Inserted}
    {rest : List ℕ} (hs : s < t.nservers) (hroute : hashGetServer t.nservers key = s)
    (hpost : InsertPost (t.part s) t.mem key esize r rest) {mem : Mem}
    (hmem : ∀ a, (mem.elem a).key = (r.m.elem a).key) (hself : due' (.markReady r.e) ≠ 0)
    (hother : ∀ a, a ≠ r.e → due' (.markReady a) = due (.markReady a)) :
    LedgerInv (t.setPart s r.p mem) due' (l.insert (r.removed.map Removal.e) key r.e) := by
  intro k x
  rw [hinv.insert_has hs hpost]
  show _ ↔ _ ∧ (mem.elem x.elem).key = k ∧ _
  rw [hmem]
  unfold Ledger.insert
  by_cases hk : k = key
  · subst hk
    rw [if_pos rfl]
    constructor
    · intro hx
      cases hx
      exact ⟨Or.inl rfl, hpost.key_eq, by simp [hself]⟩
    · rintro ⟨hin, hkey, hm⟩
      have hxe : x.elem = r.e := by
        by_contra hne
        obtain ⟨hin, hnot⟩ := hin.resolve_left hne
        rw [hpost.key_of_ne _ hne] at hkey
        -- an old element with this key would have been removed
        have hpart := (hinv.has_iff hs (by rw [hkey]; exact hroute)).mp hin
        have hrest := (List.mem_append.mp (hpost.before.mem_iff.mp hpart)).resolve_left hnot
        exact hpost.rest_key _ hrest hkey
      have hmarked : x.marked = false := by
        rw [hxe] at hm
        simpa [hself] using hm
      cases x
      simp_all
  · rw [if_neg hk, Option.filter_eq_some_iff, h k x]
    constructor
    · rintro ⟨⟨hin, hkey, hm⟩, hnot⟩
      have hnot' : x.elem ∉ r.removed.map Removal.e := by simpa using hnot
      have hne : x.elem ≠ r.e := by
        intro heq
        obtain ⟨s', hs', hin'⟩ := hin
        have hs'' : s' < t.nservers := List.mem_range.mp hs'
        rw [heq] at hnot' hin'
        exact hpost.fresh_of_notMem hnot' ((hinv.shape s' hs'').live _ hin')
      exact ⟨Or.inr ⟨hin, hnot'⟩, by rw [hpost.key_of_ne _ hne]; exact hkey,
        by rw [hother _ hne]; exact hm⟩
    · rintro ⟨hin, hkey, hm⟩
      have hne : x.elem ≠ r.e := by
        intro heq
        rw [heq, hpost.key_eq] at hkey
        exact hk hkey.symm
      obtain ⟨hin, hnot⟩ := hin.resolve_left hne
      exact ⟨⟨hin, by rw [← hpost.key_of_ne _ hne]; exact hkey, by rw [← hother _ hne]; exact hm⟩,
        by simpa using hnot⟩

end

/-! ### Whole runs -/

section

variable {N : ℕ} {f f' : Fifo} {l : Ledger}

/-- A server executes a message of a client. -/
theorem LedgerInv.exec (hset : Settled N f) (h : LedgerInv f.table (f.due N) l) {s c : ℕ} {op : Op}
    {o : Oracle} {resp : Option ℕ} {removed : List Removal} (hc : c < N) (hs : s < f.table.nservers)
    (happly : f.apply (.exec s c op o resp removed) = some f') :
    LedgerInv f'.table (f'.due N) (l.follow f (.exec s c op o resp removed)) := by
  obtain ⟨m, rest, t, htodo, hop, hm, heq⟩ := Fifo.apply_exec happly
  obtain ⟨-, hn⟩ := serverOp_resp hop
  have hroute := hset.routed c s m (by rw [htodo]; exact List.mem_cons_self)
  have hdue : ∀ x : Msg, f'.due N x + (if m = x then 1 else 0)
      = f.due N x + if resp.bind (handleOf m) = some x then 1 else 0 := by
    intro x
    rw [heq]
    exact Fifo.due_exec hc hs resp hn htodo
  have htable : f'.table = t := by rw [heq]
  rw [htable]
  simp only [Ledger.follow, htodo]
  cases m with
  | lookup key =>
      subst hm
      have hmark : ∀ e, resp.bind (handleOf (.lookup key)) ≠ some (.markReady e) := by
        intro e heq
        obtain ⟨v, -, hv⟩ := Option.bind_eq_some_iff.mp heq
        simp only [handleOf] at hv
        split at hv <;> cases hv
      have helems : ∀ (mem : Mem) (s' : ℕ),
          ((f.table.setPart s (hashLookup (f.table.part s) f.table.mem key).2 mem).part s').elems
            = (f.table.part s').elems := by
        intro mem s'
        by_cases hne : s' = s
        · subst hne
          rw [Table.setPart_part_self, hashLookup_elems]
        · rw [Table.setPart_part_of_ne _ _ hne]
      refine h.congr ?_ ?_ ?_
      · refine Table.has_congr hn ?_
        intro s'
        simp only [Msg.op, serverOp] at hop
        split at hop
        · split at hop
          · cases hop
            exact helems _ s'
          · cases hop
            exact helems _ s'
        · cases hop
          exact helems _ s'
      · intro e _
        exact serverOp_lookup_mem_key hop e
      · intro e _
        have hx := hdue (.markReady e)
        rw [if_neg (by simp), if_neg (hmark e), Nat.add_zero, Nat.add_zero] at hx
        rw [hx]
  | insert key size =>
      subst hm
      obtain ⟨r, hrun, hret⟩ := Outcome.bind_ok.mp hop
      cases hret
      obtain ⟨rest', hpost⟩ := hashInsert_post (hset.refs.shape s hs) hrun
      have hhandle : (some (valuePtr r.e)).bind (handleOf (.insert key size)) = some (.markReady r.e) := by
        simp [handleOf, valuePtr, sizeofElem]
      have hval : valuePtr r.e - sizeofElem = r.e := Nat.add_sub_cancel ..
      simp only [hval]
      refine h.insert hset.refs hs hroute.symm hpost ?_ ?_ ?_
      · intro a
        by_cases ha : a = r.e
        · simp [ha]
        · rw [Mem.setElem_of_ne _ _ ha]
      · have hx := hdue (.markReady r.e)
        rw [hhandle, if_neg (by simp), if_pos rfl] at hx
        omega
      · intro a ha
        have hx := hdue (.markReady a)
        rw [hhandle, if_neg (by simp), if_neg (by simpa using Ne.symm ha)] at hx
        exact hx
  | release e =>
      subst hm
      obtain ⟨mem, hrun, hret⟩ := Outcome.bind_ok.mp hop
      cases hret
      refine h.congr (fun _ => Iff.rfl) (fun a _ => (storeRefCount_frame hrun).key a) ?_
      intro a _
      have hx := hdue (.markReady a)
      rw [if_neg (by simp), if_neg (by simp), Nat.add_zero, Nat.add_zero] at hx
      rw [hx]
  | markReady e =>
      subst hm
      obtain ⟨mem, hrun, hret⟩ := Outcome.bind_ok.mp hop
      cases hret
      refine h.mark (fun _ => Iff.rfl) (fun a => (storeRefCount_frame hrun).key a) ?_ ?_
      · have hx := hdue (.markReady e)
        rw [if_pos rfl, if_neg (by simp)] at hx
        have := hset.refs.marking e
        omega
      · intro a ha
        have hx := hdue (.markReady a)
        rw [if_neg (by simpa using Ne.symm ha), if_neg (by simp)] at hx
        exact hx

theorem LedgerInv.apply (hset : Settled N f) (h : LedgerInv f.table (f.due N) l) {e : Event}
    (he : e.Proper N f) (happly : f.apply e = some f') :
    LedgerInv f'.table (f'.due N) (l.follow f e) := by
  -- the other events move handles without making or consuming any
  have hsame : f'.table = f.table → (∀ m : Msg, m.isRequest = false → f'.due N m = f.due N m) →
      LedgerInv f'.table (f'.due N) l := by
    intro htable hdue
    rw [htable]
    exact h.congr (fun _ => Iff.rfl) (fun _ _ => rfl) fun a _ => by rw [hdue _ rfl]
  cases e with
  | issue c s m =>
      refine hsame ?_ (hset.due_issue he.1 he.2 happly)
      obtain ⟨-, rfl⟩ := Fifo.apply_issue happly
      rfl
  | exec s c op o resp removed => exact h.exec hset he.1 he.2 happly
  | read c s v =>
      obtain ⟨x, hx, heq⟩ := Fifo.apply_read happly
      refine hsame (by rw [heq]; rfl) fun m _ => Fifo.due_read he (hset.lt_of_read hx) happly
  | got c v =>
      refine hsame ?_ fun m _ => Fifo.due_got he happly
      obtain ⟨a, x, -, -, rfl⟩ := Fifo.apply_got happly
      rfl
  | doallDone c queries values =>
      obtain ⟨-, -, -, -, rfl⟩ := Fifo.apply_doallDone happly
      exact h

end

/-- A server step executes at most one operation. -/
theorem serverStep_events {st st' : Sys} {s : ℕ} {o : Oracle} {evs : List Event}
    (hstep : serverStep st s o = .ok (st', evs)) {e : Event} (he : e ∈ evs) :
    evs = [e] ∧ ∃ c op resp removed, e = .exec s c op o resp removed := by
  cases hpc : (st.server s).pc with
  | top =>
      simp only [serverStep, hpc] at hstep
      cases hstep
      cases he
  | clients =>
      simp only [serverStep, hpc] at hstep
      cases hstep
      cases he
  | poll i n =>
      simp only [serverStep, hpc] at hstep
      cases hstep
      cases he
  | read i n pc =>
      simp only [serverStep, hpc] at hstep
      split at hstep
      · cases hstep
        cases he
      · cases hstep
        cases he
  | exec i n count k j =>
      simp only [serverStep, hpc] at hstep
      split at hstep
      · split at hstep
        · cases hstep
        · obtain ⟨⟨t, resp, removed⟩, -, hret⟩ := Outcome.bind_ok.mp hstep
          cases hret
          rw [List.mem_singleton.mp he]
          exact ⟨rfl, _, _, _, _, rfl⟩
      · split at hstep
        · cases hstep
          cases he
        · cases hstep
  | write i n j m =>
      simp only [serverStep, hpc] at hstep
      split at hstep
      · cases hstep
        cases he
      · cases hstep
        cases he
  | returned =>
      simp only [serverStep, hpc] at hstep
      cases hstep

/-- The operation a server step executes, at the queues. -/
theorem Coupled.executes {st st' : Sys} {f : Fifo} {evs : List Event} (h : Coupled st f) {s c : ℕ}
    {op : Op} {o o' : Oracle} {resp : Option ℕ} {removed : List Removal}
    (hstep : st.step (.server s o) = .ok (st', evs)) (he : .exec s c op o' resp removed ∈ evs) :
    s < f.table.nservers ∧ ∃ f', f.apply (.exec s c op o' resp removed) = some f' := by
  have hok : (Act.server s o).Ok st := trivial
  obtain ⟨f', hrun, -⟩ := h.step hok hstep
  simp only [Sys.step] at hstep
  split at hstep
  · next hs =>
    obtain ⟨rfl, -⟩ := serverStep_events hstep he
    obtain ⟨f₁, happly, -⟩ := Option.bind_eq_some_iff.mp hrun
    refine ⟨?_, f₁, happly⟩
    rw [h.table]
    exact hs
  · cases hstep

/-- The answer `v` to a lookup of `k`, given the ledger: the element of the last insert of `k` if it
has been marked ready, and nothing else. -/
def Finds (N : ℕ) (f : Fifo) (l : Ledger) (k v : ℕ) : Prop :=
  (v ≠ 0 → ∃ e, l k = some ⟨e, true⟩ ∧ v = valuePtr e ∧ (f.table.mem.elem e).key = k) ∧
    ∀ e, l k = some ⟨e, true⟩ → f.refs N e + 1 < 2 ^ 63 → v = valuePtr e

theorem Settled.finds {N : ℕ} {f f' : Fifo} {l : Ledger} (hset : Settled N f)
    (h : LedgerInv f.table (f.due N) l) {s c k : ℕ} {o : Oracle} {resp : Option ℕ}
    {removed : List Removal} (hs : s < f.table.nservers)
    (happly : f.apply (.exec s c (.lookup k) o resp removed) = some f') :
    ∃ v, resp = some v ∧ Finds N f l k v := by
  obtain ⟨m, rest, t, htodo, hop, hm, -⟩ := Fifo.apply_exec happly
  have hroute : s = hashGetServer f.table.nservers k := by
    have hr := hset.routed c s m (by rw [htodo]; exact List.mem_cons_self)
    cases m with
    | lookup key =>
        cases hm
        exact hr
    | insert key size => cases hm
    | release e => cases hm
    | markReady e => cases hm
  have hshape := hset.refs.shape s hs
  -- what the ledger lists under `k` is what `hash_lookup` finds
  have hfound : ∀ e, (hashLookup (f.table.part s) f.table.mem k).1 = some e ↔
      l k = some ⟨e, decide (f.due N (.markReady e) = 0)⟩ := by
    intro e
    rw [hashLookup_eq_some hshape, h]
    constructor
    · rintro ⟨hin, hkey⟩
      exact ⟨Table.has_of_mem hs hin, hkey, by simp⟩
    · rintro ⟨hin, hkey, -⟩
      exact ⟨(hset.refs.has_iff hs (by rw [hkey]; exact hroute.symm)).mp hin, hkey⟩
  have hlive : ∀ e, (hashLookup (f.table.part s) f.table.mem k).1 = some e → f.table.mem.Live e :=
    fun e he => hshape.live e ((hashLookup_eq_some hshape k e).mp he).1
  have hflag : ∀ e, (hashLookup (f.table.part s) f.table.mem k).1 = some e →
      ((f.Pending N e → isValueReady f.table.mem e = false) ∧
        (f.refs N e + 1 < 2 ^ 63 → ¬ f.Pending N e → isValueReady f.table.mem e = true)) := by
    intro e he
    obtain ⟨h₁, h₂⟩ := hset.exact.flag e (hlive e he)
    refine ⟨fun hp => by simpa [isValueReady] using h₁ hp, fun hlt hp => ?_⟩
    have hzero := (not_congr (h₂ hlt)).mpr hp
    simpa [isValueReady] using hzero
  simp only [serverOp] at hop
  split at hop
  · next e he =>
    have hentry := (hfound e).mp he
    have hhas := ((h k _).mp hentry).1
    split at hop
    · next hready =>
      cases hop
      refine ⟨valuePtr e, rfl, fun _ => ?_, ?_⟩
      · have hmark : f.due N (.markReady e) = 0 := by
          by_contra hne
          have hnot := (hflag e he).1 ⟨hhas, Nat.pos_of_ne_zero hne⟩
          rw [hready] at hnot
          cases hnot
        rw [hmark] at hentry
        exact ⟨e, hentry, rfl, ((h k _).mp hentry).2.1⟩
      · intro e' he' _
        rw [hentry, Option.some.injEq, Entry.mk.injEq] at he'
        rw [he'.1]
    · next hready =>
      cases hop
      refine ⟨0, rfl, fun hne => absurd rfl hne, ?_⟩
      intro e' he' hlt
      rw [hentry, Option.some.injEq, Entry.mk.injEq] at he'
      obtain ⟨rfl, hmark⟩ := he'
      have hnot : ¬ f.Pending N e := fun hp => absurd (of_decide_eq_true hmark) (Nat.ne_of_gt hp.2)
      exact absurd ((hflag e he).2 hlt hnot) hready
  · next he =>
    cases hop
    refine ⟨0, rfl, fun hne => absurd rfl hne, ?_⟩
    intro e he' _
    have hmark : decide (f.due N (.markReady e) = 0) = true :=
      decide_eq_true (((h k _).mp he').2.2.mp rfl)
    have hsome := (hfound e).mpr (by rw [hmark]; exact he')
    rw [he] at hsome
    cases hsome

theorem ledgerInv_init (maxSize nservers : ℕ) (evictalgo : Evictalgo) (due : Msg → ℕ) :
    LedgerInv (createHashTable maxSize nservers evictalgo) due Ledger.empty := by
  intro k x
  have hhas : ¬ (createHashTable maxSize nservers evictalgo).Has x.elem := by
    rintro ⟨s, -, he⟩
    have hnil : ((createHashTable maxSize nservers evictalgo).part s).elems = [] := Lists.cat_const_nil _
    rw [hnil] at he
    cases he
  constructor
  · intro hx
    cases hx
  · rintro ⟨hin, -⟩
    exact absurd hin hhas

/-- The ledger of a disciplined run lists the table. -/
theorem disciplined_ledger {maxSize nservers : ℕ} {evictalgo : Evictalgo} {st : Sys} {log : List Event}
    (h : Sys.Disciplined (createHashTable maxSize nservers evictalgo) st log) :
    ∃ f l, Fifo.replayWith Ledger.follow
        (Fifo.init (createHashTable maxSize nservers evictalgo), Ledger.empty) log = some (f, l) ∧
      Coupled st f ∧ Settled st.nclients f ∧ LedgerInv f.table (f.due st.nclients) l :=
  h.invariant Ledger.follow Ledger.empty
    (Q := fun N f l => Settled N f ∧ LedgerInv f.table (f.due N) l)
    ⟨settled_init maxSize nservers evictalgo, ledgerInv_init maxSize nservers evictalgo _⟩
    (fun ⟨hs, hl⟩ => ⟨hs.create, hl.congr (fun _ => Iff.rfl) (fun _ _ => rfl)
      fun e _ => by rw [Fifo.due_succ (hs.unborn _ le_rfl)]⟩)
    fun ⟨hs, hl⟩ he happly => ⟨hs.apply he happly, hl.apply hs he happly⟩

/-- **Lookups**: in every run in which handles are given back once, a lookup is answered with the
element of the last insert of its key, if that is marked ready and in the table; and an element with a
handle is live, and none that an insert returns. -/
theorem disciplined_lookup {maxSize nservers : ℕ} {evictalgo : Evictalgo} {st : Sys} {log : List Event}
    (h : Sys.Disciplined (createHashTable maxSize nservers evictalgo) st log) :
    ∃ f l, Fifo.replayWith Ledger.follow
        (Fifo.init (createHashTable maxSize nservers evictalgo), Ledger.empty) log = some (f, l) ∧
      f.table = st.table ∧
      (∀ s o st' evs c k o' resp removed, st.step (.server s o) = .ok (st', evs) →
        .exec s c (.lookup k) o' resp removed ∈ evs → ∃ v, resp = some v ∧ Finds st.nclients f l k v) ∧
      (∀ s o st' evs c k size o' v removed, st.step (.server s o) = .ok (st', evs) →
        .exec s c (.insert k size) o' (some v) removed ∈ evs →
          f.due st.nclients (.release (v - sizeofElem)) = 0) ∧
      ∀ e, 0 < f.due st.nclients (.release e) → f.table.mem.Live e := by
  obtain ⟨f, l, hlog, hcoup, hset, hledger⟩ := disciplined_ledger h
  refine ⟨f, l, hlog, hcoup.table, ?_, ?_, ?_⟩
  · intro s o st' evs c k o' resp removed hstep he
    obtain ⟨hs, f', happly⟩ := hcoup.executes hstep he
    exact hset.finds hledger hs happly
  · intro s o st' evs c k size o' v removed hstep he
    obtain ⟨hs, f', happly⟩ := hcoup.executes hstep he
    obtain ⟨m, rest, t, -, hop, -, -⟩ := Fifo.apply_exec happly
    obtain ⟨r, hrun, hret⟩ := Outcome.bind_ok.mp hop
    cases hret
    have hval : valuePtr r.e - sizeofElem = r.e := Nat.add_sub_cancel ..
    rw [hval]
    exact (hset.refs.insert_fresh hs hrun).1
  · intro e hdue
    exact hset.refs.live_of_due (Or.inl hdue)

/-- The lookup of a key whose insert has been marked ready. -/
theorem disciplined_lookup_marked : ∃ st log st' evs f l,
    Sys.Disciplined (createHashTable 1024 1 .lru) st log ∧
      st.step (.server 0 ⟨[], []⟩) = .ok (st', evs) ∧
      .exec 0 0 (.lookup 5) ⟨[], []⟩ (some 128) [] ∈ evs ∧
      Fifo.replayWith Ledger.follow (Fifo.init (createHashTable 1024 1 .lru), Ledger.empty) log
        = some (f, l) ∧ Finds 1 f l 5 128 := by
  have hval : ((Runs.run Sys.step
      (fun st log a => a.Ok st ∧ a.Returns (createHashTable 1024 1 .lru) log) (releaseRun.take 66)
      (Sys.init (createHashTable 1024 1 .lru)) []).map
        fun r => (r.1.nclients, (r.1.step (.server 0 ⟨[], []⟩)).toOption.map Prod.snd))
      = some (1, some [.exec 0 0 (.lookup 5) ⟨[], []⟩ (some 128) []]) := by
    decide +kernel
  obtain ⟨⟨st, log⟩, hrun, heq⟩ := Option.map_eq_some_iff.mp hval
  have hreach : Sys.Disciplined (createHashTable 1024 1 .lru) st log := Runs.Reach.start.run hrun
  obtain ⟨hcl, hevs⟩ := Prod.mk.inj heq
  simp only at hcl hevs
  obtain ⟨⟨st', evs⟩, hstep, rfl⟩ := Option.map_eq_some_iff.mp hevs
  have hstep' : st.step (.server 0 ⟨[], []⟩)
      = .ok (st', [.exec 0 0 (.lookup 5) ⟨[], []⟩ (some 128) []]) := by
    cases hx : st.step (.server 0 ⟨[], []⟩) with
    | ok x =>
        rw [hx] at hstep
        cases hstep
        rfl
    | error e =>
        rw [hx] at hstep
        cases hstep
  obtain ⟨f, l, hlog, -, hfinds, -⟩ := disciplined_lookup hreach
  obtain ⟨v, hv, hf⟩ := hfinds _ _ _ _ _ _ _ _ _ hstep' List.mem_cons_self
  cases hv
  rw [hcl] at hf
  exact ⟨st, log, st', _, f, l, hreach, hstep', List.mem_cons_self, hlog, hf⟩

end SmpHashTable
