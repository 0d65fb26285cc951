import SmpHashTable.AtomicCounts
import SmpHashTable.Saturation

/-!
# Runs of the locking table

Every step of a thread keeps the accounts of all elements: a release, `atomic_mark_ready`, the removal of an
element under the lock, the reference a lookup takes, the end of an insert, and the `free` of an element.
So the reference counts are exact in every interleaving, up to `2 ^ 63` references of one element.
-/

namespace SmpHashTable

namespace Locking

variable {st st' : Locking} {log evs : List LockingEvent} {t s e : ℕ}

/-! ### What changes an account -/

/-- Everything that holds between two steps. -/
structure Inv (st : Locking) (log : List LockingEvent) : Prop where
  bodies : Bodies st
  counts : Counts st log

theorem Bodies.setRefCount (h : Bodies st) (e w : ℕ) : Bodies (st.setRefCount e w) := by
  refine h.keepMem fun s hs a ha => ⟨(h.shape s hs).live a ha, ?_⟩
  by_cases hae : a = e
  · subst hae
    rw [Mem.setElem_self]
    exact ⟨rfl, rfl⟩
  · rw [Mem.setElem_of_ne _ _ hae]
    exact ⟨rfl, rfl⟩

/-- The elements of the table after a change of partition `s`. -/
theorem has_setPart (hs : s < st.table.nservers) (p : Partition) (a : ℕ) :
    (st.setPart s p).table.Has a ↔
      a ∈ p.elems ∨ ∃ s' < st.table.nservers, s' ≠ s ∧ a ∈ (st.table.part s').elems := by
  constructor
  · rintro ⟨s', hs', ha⟩
    replace ha : a ∈ (Function.update st.table.part s p s').elems := ha
    by_cases hss : s' = s
    · rw [hss, Function.update_self] at ha
      exact Or.inl ha
    · rw [Function.update_of_ne hss] at ha
      exact Or.inr ⟨s', List.mem_range.mp hs', hss, ha⟩
  · rintro (ha | ⟨s', hs', hss, ha⟩)
    · refine ⟨s, List.mem_range.mpr hs, ?_⟩
      show a ∈ (Function.update st.table.part s p s).elems
      rwa [Function.update_self]
    · refine ⟨s', List.mem_range.mpr hs', ?_⟩
      show a ∈ (Function.update st.table.part s p s').elems
      rwa [Function.update_of_ne hss]

theorem has_iff (hs : s < st.table.nservers) (a : ℕ) : st.table.Has a ↔
    a ∈ (st.table.part s).elems ∨ ∃ s' < st.table.nservers, s' ≠ s ∧ a ∈ (st.table.part s').elems := by
  have h := has_setPart hs (st.table.part s) a
  rwa [setPart_self] at h

/-- The elements of the table without `e`. -/
theorem Bodies.has_remove (h : Bodies st) (hs : s < st.table.nservers) {p : Partition} {extra : ℕ}
    (hshape : Shape p st.table.mem extra) (helems : p.elems = (st.table.part s).elems) (he : e ∈ p.elems)
    (a : ℕ) : (st.setPart s (hashRemove p st.table.mem e)).table.Has a ↔ st.table.Has a ∧ a ≠ e := by
  rw [has_setPart hs, has_iff hs, mem_hashRemove_elems hshape he, helems, or_and_right]
  refine or_congr_right ⟨fun hin => ⟨hin, ?_⟩, And.left⟩
  obtain ⟨s', hs', hss, ha⟩ := hin
  rintro rfl
  exact hss (h.home_unique hs' hs ha (helems ▸ he))

theorem refs_of_mem (log : List LockingEvent) (hs : s < st.table.nservers)
    (he : e ∈ (st.table.part s).elems) : st.refs log e = handles log e + 1 := by
  have hhas : st.table.Has e := ⟨s, List.mem_range.mpr hs, he⟩
  rw [refs, if_pos hhas]
  omega

/-- `atomic_release_value`. -/
theorem Inv.release (h : Inv st log) (hidle : st.pc t = .idle) (hpos : 0 < handles log e)
    (hstep : st.update t e (fun w => sub64 w 1) .client = .ok st') :
    Inv st' (log ++ [.gave t e]) := by
  obtain ⟨-, rfl⟩ := update_ok hstep
  have htallies := tallies_gave log t e
  have hrefs : st.refs (log ++ [.gave t e]) e = st.refs log e - 1 := by
    rw [refs, refs, (htallies e).1, if_pos rfl]
    omega
  have hrefs_pos : 0 < st.refs log e := by
    rw [refs]
    omega
  refine ⟨?_, ?_⟩
  · refine (h.bodies.setRefCount e _).outside ?_ ?_
    · show (st.pc t).holds = none
      rw [hidle]
      rfl
    · split <;> rfl
  · refine h.counts.word st rfl rfl ?_ (Or.inl hrefs_pos) (fun _ _ => Iff.rfl) ?_ ?_ ?_ ?_ ?_
      (fun a => (htallies a).2.2.1) fun a => (htallies a).2.2.2
    · intro a r hr
      rw [hidle] at hr
      cases hr
    · intro a ha
      rw [(htallies a).1, if_neg (Ne.symm ha)]
    · exact fun a _ => (htallies a).2.1
    · exact (htallies e).2.1.le
    · omega
    · rw [hrefs, (htallies e).1, if_pos rfl, (htallies e).2.1]
      exact (h.counts.account e).drop hrefs_pos (Nat.sub_le _ _)

/-- `atomic_mark_ready`. -/
theorem Inv.markReady (h : Inv st log) (hidle : st.pc t = .idle) (hpos : 0 < filling log e)
    (hstep : st.update t e clearReadyMask .client = .ok st') : Inv st' (log ++ [.marked t e]) := by
  obtain ⟨-, rfl⟩ := update_ok hstep
  have htallies := tallies_marked log t e
  have hrefs : st.refs (log ++ [.marked t e]) e = st.refs log e := by
    rw [refs, refs, (htallies e).1]
  refine ⟨?_, ?_⟩
  · refine (h.bodies.setRefCount e _).outside ?_ ?_
    · show (st.pc t).holds = none
      rw [hidle]
      rfl
    · split <;> rfl
  · refine h.counts.word st rfl rfl ?_ (Or.inr hpos) (fun _ _ => Iff.rfl) ?_ ?_ ?_ hrefs.le ?_
      (fun a => (htallies a).2.2.1) fun a => (htallies a).2.2.2
    · intro a r hr
      rw [hidle] at hr
      cases hr
    · exact fun a _ => (htallies a).1
    · intro a ha
      rw [(htallies a).2.1, if_neg (Ne.symm ha)]
    · rw [(htallies e).2.1, if_pos rfl]
      exact Nat.sub_le _ _
    · rw [hrefs, (htallies e).1, (htallies e).2.1, if_pos rfl]
      exact (h.counts.account e).mark hpos

/-- `hash_remove` and the release that follows it. -/
theorem Inv.remove (h : Inv st log) {c : InsertCall} {ret : ReleaseRet}
    (hret : ret = .charge c ∨ ret = .evict c) (hholds : (st.pc t).holds = some c.s)
    (hnot : ∀ a r, st.pc t ≠ .free a r) {p : Partition} (hshape : Shape p st.table.mem ret.next.charged)
    (helems : p.elems = (st.table.part c.s).elems) (he : e ∈ p.elems)
    (haimed : hashGetServer st.table.nservers c.key = c.s)
    (habsent : ∀ a ∈ p.elems, a ≠ e → (st.table.mem.elem a).key ≠ c.key)
    (hstep : st.remove t c.s p e ret = .ok st') : Inv st' (log ++ []) := by
  obtain ⟨-, rfl⟩ := update_ok hstep
  have hs := h.bodies.inside t c.s hholds
  have hhas := h.bodies.has_remove hs hshape helems he
  have hmem := mem_hashRemove_elems hshape he
  have hrefs := refs_of_mem log hs (helems ▸ he)
  have hrefs' : (st.setPart c.s (hashRemove p st.table.mem e)).refs (log ++ []) e = st.refs log e - 1 := by
    rw [List.append_nil, refs, if_neg (fun hin => ((hhas e).mp hin).2 rfl), hrefs]
    omega
  have hpc : ∀ w, (if w = 0 then LockingPc.free e ret else ret.next).holds = some c.s ∧
      (if w = 0 then LockingPc.free e ret else ret.next).call = some c ∧
      (if w = 0 then LockingPc.free e ret else ret.next).making = some c ∧
      (if w = 0 then LockingPc.free e ret else ret.next).charged = ret.next.charged := by
    intro w
    rcases hret with rfl | rfl <;> split <;> exact ⟨rfl, rfl, rfl, rfl⟩
  refine ⟨?_, ?_⟩
  · obtain ⟨hholds', hcall, hmaking, hcharged⟩ :=
      hpc (sub64 (st.table.mem.elem e).refCount 1)
    refine (h.bodies.within _ (p := hashRemove p st.table.mem e) hholds hholds' ?_ ?_ ?_ ?_
      ?_).setRefCount e _
    · rw [hcharged]
      exact hashRemove_shape hshape he
    · intro a ha
      exact h.bodies.home c.s hs a (helems ▸ ((hmem a).mp ha).1)
    · intro c' hc'
      obtain rfl := Option.some.inj (hcall.symm.trans hc')
      exact haimed
    · intro c' hc' a ha
      obtain rfl := Option.some.inj (hmaking.symm.trans hc')
      exact habsent a ((hmem a).mp ha).1 ((hmem a).mp ha).2
    · intro a ha
      rw [ha] at hcall
      cases hcall
  · refine h.counts.word (st.setPart c.s (hashRemove p st.table.mem e)) rfl rfl hnot
      (Or.inl (by omega)) ?_ ?_ ?_ ?_ ?_ ?_ ?_ ?_
    · intro a ha
      rw [hhas a]
      exact and_iff_left ha
    · exact fun a _ => by rw [List.append_nil]
    · exact fun a _ => by rw [List.append_nil]
    · rw [List.append_nil]
    · omega
    · rw [hrefs', List.append_nil]
      exact (h.counts.account e).drop (by omega) le_rfl
    · exact fun a => by rw [List.append_nil]
    · exact fun a => by rw [List.append_nil]

/-- The reference that a lookup takes. -/
theorem Inv.take (h : Inv st log) (hpc : st.pc t = .take s e) :
    Inv ((st.setRefCount e (add64 (st.table.mem.elem e).refCount 1)).setPc t (.leave s (valuePtr e)))
      (log ++ [.took t e]) := by
  have htallies := tallies_took log t e
  have hholds : (st.pc t).holds = some s := by rw [hpc]; rfl
  have hs := h.bodies.inside t s hholds
  have hin := h.bodies.taking t s e hpc
  have hrefs := refs_of_mem log hs hin
  obtain ⟨hfill, hlt⟩ := h.counts.ready t s e hpc
  have hlive := (h.bodies.shape s hs).live e hin
  refine ⟨?_, ?_⟩
  · refine (h.bodies.stay (.leave s (valuePtr e)) hholds rfl ?_ nofun nofun nofun).setRefCount e _
    rw [hpc]
    rfl
  · have hquiet : ¬ st.Freeing e := fun hfree => by
      have hzero := ((h.counts.account e).idle hfree).1
      omega
    have hfreeing : ((st.setRefCount e (add64 (st.table.mem.elem e).refCount 1)).setPc t
        (.leave s (valuePtr e))).Freeing e ↔ st.Freeing e := by
      rw [freeing_iff st t (.leave s (valuePtr e)) rfl]
      constructor
      · rintro (⟨r, hr⟩ | ⟨t', -, r, hr⟩)
        · cases hr
        · exact ⟨t', r, hr⟩
      · exact fun hfree => absurd hfree hquiet
    have hrefs' : st.refs (log ++ [.took t e]) e = st.refs log e + 1 := by
      rw [refs_of_mem _ hs hin, hrefs, (htallies e).1, if_pos rfl]
    refine h.counts.change e rfl ?_ nofun (fun a _ => Mem.setElem_live _ _ _ _)
      (fun a ha => Mem.setElem_of_ne _ _ ha) (fun _ _ => Iff.rfl) ?_ (fun a _ => (htallies a).2.1) ?_ nofun
      nofun ?_ ?_
    · intro a r hr
      rw [hpc] at hr
      cases hr
    · intro a ha
      rw [(htallies a).1, if_neg (Ne.symm ha)]
    · show Account _ _ ((st.table.mem.setElem e _).elem e).refCount (st.refs (log ++ [.took t e]) e) _ _
      rw [propext hfreeing, hrefs', (htallies e).2.1, (htallies e).1, if_pos rfl, Mem.setElem_self]
      exact (h.counts.account e).take hlive hfill (by omega) hlt
    · intro t' hne s' hs'
      exact absurd (h.bodies.take_alone hpc hs').symm hne
    · intro a
      rw [(htallies a).2.2.1, (htallies a).2.2.2]
      exact h.counts.frees_eq a

/-- **The end of an insert**, with a fresh block for the element. -/
theorem Inv.link (h : Inv st log) {c : InsertCall} (hpc : st.pc t = .evict c)
    (hfresh : st.table.mem.Fresh e CACHELINE) {m₀ : Mem}
    (hm₀ : m₀ = { st.table.mem with blocks := (e, CACHELINE) :: st.table.mem.blocks }) :
    Inv (st.link t c e m₀) (log ++ [.inserted t e]) := by
  have htallies := tallies_inserted log t e
  have hholds : (st.pc t).holds = some c.s := by rw [hpc]; rfl
  have hs := h.bodies.inside t c.s hholds
  have hdead := hfresh.not_live
  have hshape : Shape (st.table.part c.s) st.table.mem (elemSize c.size) := by
    have hshape := h.bodies.shape c.s hs
    rw [h.bodies.charged_of_holds hholds, hpc] at hshape
    exact hshape
  have habsent := h.bodies.absent t c (by rw [hpc]; rfl)
  have haimed := h.bodies.aimed t c (by rw [hpc]; rfl)
  set m := (linkElem (st.table.part c.s) m₀ e c.key (elemSize c.size)).2 with hm
  set p := (linkElem (st.table.part c.s) m₀ e c.key (elemSize c.size)).1 with hp
  have hlinked : Shape p m 0 := by
    rw [hm, hp, hm₀]
    exact linkElem_shape CACHELINE hshape hdead habsent
  have helems : ∀ a, a ∈ p.elems ↔ a = e ∨ a ∈ (st.table.part c.s).elems := fun a =>
    (Lists.cat_concat_perm (Nat.mod_lt _ hshape.nhash_pos) (st.table.part c.s).table e).mem_iff.trans
      List.mem_cons
  have hlive : ∀ a, m.Live a ↔ a = e ∨ st.table.mem.Live a := by
    intro a
    show a ∈ m₀.blocks.map Prod.fst ↔ _
    rw [hm₀, List.map_cons, List.mem_cons]
    rfl
  have helem : ∀ a ≠ e, m.elem a = st.table.mem.elem a := fun a ha =>
    (Mem.setElem_of_ne m₀ _ ha).trans (by rw [hm₀])
  have hkey : (m.elem e).key = c.key := by
    rw [hm, linkElem, Mem.setElem_self]
  have hold : ∀ s' < st.table.nservers, ∀ a ∈ (st.table.part s').elems, a ≠ e := by
    rintro s' hs' a ha rfl
    exact hdead ((h.bodies.shape s' hs').live a ha)
  -- an address that is not live has no references
  obtain ⟨hrefs, hfill⟩ : st.refs log e = 0 ∧ filling log e = 0 := by
    have hnot := (h.counts.account e).live_iff.not.mp hdead
    omega
  have hquiet : ¬ st.Freeing e := fun hfree =>
    hdead ((h.counts.account e).live_iff.mpr (Or.inr (Or.inr hfree)))
  have hhandles : handles log e = 0 := by
    rw [refs] at hrefs
    omega
  have hhas : ∀ a, (st.link t c e m₀).table.Has a ↔ a = e ∨ st.table.Has a := by
    intro a
    have hset : (st.link t c e m₀).table.Has a ↔ (st.setPart c.s p).table.Has a := Iff.rfl
    rw [hset, has_setPart hs, has_iff hs, helems, or_assoc]
  refine ⟨?_, ?_⟩
  · have hmem := h.bodies.keepMem (m := m) fun s' hs' a ha => by
      rw [helem a (hold s' hs' a ha)]
      exact ⟨(hlive a).mpr (Or.inr ((h.bodies.shape s' hs').live a ha)), rfl, rfl⟩
    refine (hmem.within (.leave c.s (valuePtr e)) (p := p) hholds rfl hlinked ?_
      (fun _ hc => by cases hc) (fun _ hc => by cases hc) fun _ ha => by cases ha).setRefCount e
        (DATA_READY_MASK ||| 1)
    intro a ha
    show hashGetServer st.table.nservers (m.elem a).key = c.s
    rcases (helems a).mp ha with rfl | hin
    · rw [hkey]
      exact haimed
    · rw [helem a (hold c.s hs a hin)]
      exact h.bodies.home c.s hs a hin
  · have hrefs' : (st.link t c e m₀).refs (log ++ [.inserted t e]) e = 1 := by
      rw [refs, if_pos ((hhas e).mpr (Or.inl rfl)), (htallies e).1, hhandles]
    have hlive' : ∀ a, (st.link t c e m₀).table.mem.Live a ↔ a = e ∨ st.table.mem.Live a := hlive
    have hfreeing : ¬ (st.link t c e m₀).Freeing e := by
      rw [freeing_iff st t (.leave c.s (valuePtr e)) rfl]
      rintro (⟨r, hr⟩ | ⟨t', -, r, hr⟩)
      · cases hr
      · exact hquiet ⟨t', r, hr⟩
    refine h.counts.change e rfl ?_ (fun _ _ hr => by cases hr) ?_ ?_ ?_ (fun a _ => (htallies a).1) ?_ ?_
      (fun _ hr => by cases hr) (fun _ _ ha => by cases ha) ?_ ?_
    · intro a r hr
      rw [hpc] at hr
      cases hr
    · intro a ha
      exact (hlive a).trans (or_iff_right ha)
    · intro a ha
      exact (Mem.setElem_of_ne m _ ha).trans (helem a ha)
    · intro a ha
      exact (hhas a).trans (or_iff_right ha)
    · intro a ha
      rw [(htallies a).2.1, if_neg (Ne.symm ha)]
    · have hword : ((st.link t c e m₀).table.mem.elem e).refCount = DATA_READY_MASK ||| 1 := by
        show ((m.setElem e _).elem e).refCount = _
        rw [Mem.setElem_self]
      rw [eq_true ((hlive' e).mpr (Or.inl rfl)), eq_false hfreeing, hword, hrefs', (htallies e).2.1,
        if_pos rfl, hfill, (htallies e).1, hhandles]
      exact account_new
    · intro t' _ s' hs'
      have hholds' : (st.pc t').holds = some s' := by rw [hs']; rfl
      exact absurd rfl (hold s' (h.bodies.inside t' s' hholds') e (h.bodies.taking t' s' e hs'))
    · intro a
      have hcount := h.counts.frees_eq a
      rw [(htallies a).2.2.1, (htallies a).2.2.2, ← hcount]
      by_cases ha : a = e
      · subst ha
        rw [if_pos ((hlive' a).mpr (Or.inl rfl)), if_pos rfl, if_neg hdead]
      · simp only [(hlive' a).trans (or_iff_right ha), if_neg (Ne.symm ha)]
        omega

theorem free_ok {m m' : Mem} (hstep : SmpHashTable.free m e = .ok m') :
    m.Live e ∧ m'.elem = m.elem ∧ ∀ a, m'.Live a ↔ m.Live a ∧ a ≠ e := by
  unfold SmpHashTable.free at hstep
  split at hstep
  · next hlive =>
    cases hstep
    refine ⟨hlive, rfl, fun a => ?_⟩
    constructor
    · intro ha
      obtain ⟨b, hb, rfl⟩ := List.mem_map.mp ha
      obtain ⟨hin, hne⟩ := List.mem_filter.mp hb
      exact ⟨List.mem_map.mpr ⟨b, hin, rfl⟩, of_decide_eq_true hne⟩
    · rintro ⟨ha, hne⟩
      obtain ⟨b, hb, rfl⟩ := List.mem_map.mp ha
      exact List.mem_map.mpr ⟨b, List.mem_filter.mpr ⟨hb, decide_eq_true hne⟩, rfl⟩
  · cases hstep

/-- `free` of an element, by the thread that brought its word to zero. -/
theorem Inv.free (h : Inv st log) {ret : ReleaseRet} (hpc : st.pc t = .free e ret) {m : Mem}
    (hstep : SmpHashTable.free st.table.mem e = .ok m) :
    Inv ({ st with table := { st.table with mem := m } }.setPc t ret.next) (log ++ [.freed t e]) := by
  obtain ⟨hlive, helem, hlives⟩ := free_ok hstep
  have htallies := tallies_freed log t e
  have hfreeing : st.Freeing e := ⟨t, ret, hpc⟩
  obtain ⟨hrefs, hfill⟩ := (h.counts.account e).idle hfreeing
  have hhandles : handles log e = 0 := by
    rw [refs] at hrefs
    omega
  have hout : ¬ st.table.Has e := by
    intro hin
    rw [refs, if_pos hin] at hrefs
    omega
  have hold : ∀ s' < st.table.nservers, ∀ a ∈ (st.table.part s').elems, a ≠ e := by
    rintro s' hs' a ha rfl
    exact hout ⟨s', List.mem_range.mpr hs', ha⟩
  refine ⟨?_, ?_⟩
  · have hmem := h.bodies.keepMem fun s' hs' a ha => by
      rw [helem]
      exact ⟨(hlives a).mpr ⟨(h.bodies.shape s' hs').live a ha, hold s' hs' a ha⟩, rfl, rfl⟩
    cases ret with
    | client =>
        refine hmem.outside ?_ rfl
        show (st.pc t).holds = none
        rw [hpc]
        rfl
    | charge c =>
        have hpc' : ({ st with table := { st.table with mem := m } } : Locking).pc t
            = .free e (.charge c) := hpc
        refine hmem.stay (.charge c) (by rw [hpc']; rfl) rfl (by rw [hpc']; rfl) ?_ ?_
          fun _ ha => by cases ha
        · rintro c' ⟨⟩
          exact hmem.aimed t c (by rw [hpc']; rfl)
        · rintro c' ⟨⟩
          exact hmem.absent t c (by rw [hpc']; rfl)
    | evict c =>
        have hpc' : ({ st with table := { st.table with mem := m } } : Locking).pc t
            = .free e (.evict c) := hpc
        refine hmem.stay (.evict c) (by rw [hpc']; rfl) rfl (by rw [hpc']; rfl) ?_ ?_
          fun _ ha => by cases ha
        · rintro c' ⟨⟩
          exact hmem.aimed t c (by rw [hpc']; rfl)
        · rintro c' ⟨⟩
          exact hmem.absent t c (by rw [hpc']; rfl)
  · have hnext := next_ne ret
    have hquiet : ¬ ({ st with table := { st.table with mem := m } }.setPc t ret.next).Freeing e := by
      rw [freeing_iff st t ret.next rfl]
      rintro (⟨r, hr⟩ | ⟨t', hne, r, hr⟩)
      · exact hnext.1 e r hr
      · exact hne (h.counts.free_inj t' t e r ret hr hpc)
    refine h.counts.change e rfl ?_ ?_ ?_ ?_ (fun _ _ => Iff.rfl) (fun a _ => (htallies a).1)
      (fun a _ => (htallies a).2.1) ?_ ?_ ?_ ?_ ?_
    · intro a r hr
      rw [hpc] at hr
      cases hr
      rfl
    · exact fun a r hr => absurd hr (hnext.1 a r)
    · intro a ha
      exact (hlives a).trans (and_iff_left ha)
    · intro a _
      show m.elem a = st.table.mem.elem a
      rw [helem]
    · have hrefs' : ({ st with table := { st.table with mem := m } }.setPc t ret.next).refs
          (log ++ [LockingEvent.freed t e]) e = 0 := by
        show (if st.table.Has e then 1 else 0) + handles (log ++ [.freed t e]) e = 0
        rw [if_neg hout, (htallies e).1, hhandles]
      have hdead : ¬ ({ st with table := { st.table with mem := m } }.setPc t ret.next).table.mem.Live e :=
        fun hl => ((hlives e).mp hl).2 rfl
      rw [eq_false hdead, eq_false hquiet, hrefs', (htallies e).2.1, hfill, (htallies e).1, hhandles]
      exact account_free _
    · exact fun r hr => absurd hr (hnext.1 e r)
    · exact fun s' a ha => absurd ha (hnext.2 s' a)
    · intro t' _ s' hs'
      have hholds' : (st.pc t').holds = some s' := by rw [hs']; rfl
      exact absurd rfl (hold s' (h.bodies.inside t' s' hholds') e (h.bodies.taking t' s' e hs'))
    · intro a
      have hcount := h.counts.frees_eq a
      rw [(htallies a).2.2.1, (htallies a).2.2.2, ← hcount]
      have hlive' : ({ st with table := { st.table with mem := m } }.setPc t ret.next).table.mem.Live a
          ↔ st.table.mem.Live a ∧ a ≠ e := hlives a
      by_cases ha : a = e
      · subst ha
        rw [if_neg (fun hl => (hlive'.mp hl).2 rfl), if_pos rfl, if_pos hlive]
      · simp only [hlive'.trans (and_iff_left ha), if_neg (Ne.symm ha)]
        omega

/-! ### Every step -/

/-- A step in the body of partition `s` that leaves the elements alone. -/
theorem Inv.within (h : Inv st log) (pc : LockingPc) {p : Partition} (hholds : (st.pc t).holds = some s)
    (hold : ∀ a r, st.pc t ≠ .free a r) (hnew : ∀ a r, pc ≠ .free a r) (hholds' : pc.holds = some s)
    (hshape : Shape p st.table.mem pc.charged)
    (helems : ∀ a, a ∈ p.elems ↔ a ∈ (st.table.part s).elems)
    (haimed : ∀ c, pc.call = some c → hashGetServer st.table.nservers c.key = c.s)
    (habsent : ∀ c, pc.making = some c → ∀ a ∈ p.elems, (st.table.mem.elem a).key ≠ c.key)
    (htaking : ∀ s a, pc = .take s a →
      a ∈ p.elems ∧ filling log a = 0 ∧ st.refs log a < DATA_READY_MASK) :
    Inv ((st.setPart s p).setPc t pc) (log ++ []) := by
  have hs := h.bodies.inside t s hholds
  refine ⟨?_, ?_⟩
  · refine h.bodies.within pc hholds hholds' hshape ?_ haimed habsent fun a ha => (htaking s a ha).1
    intro a ha
    exact h.bodies.home s hs a ((helems a).mp ha)
  · refine h.counts.skip rfl hold hnew rfl (fun a => ?_) ?_ ?_
    · show (st.setPart s p).table.Has a ↔ st.table.Has a
      rw [has_setPart hs, has_iff hs, helems]
    · intro a
      rw [List.append_nil]
      exact ⟨rfl, rfl, rfl, rfl⟩
    · exact fun s a ha => (htaking s a ha).2

/-- A call waits for the lock of its partition and gets it. -/
theorem Inv.acquire (h : Inv st log) (pc : LockingPc) (hs : s < st.table.nservers)
    (hholds : pc.holds = some s) (hcharged : pc.charged = 0)
    (haimed : ∀ c, pc.call = some c → hashGetServer st.table.nservers c.key = c.s)
    (hmaking : pc.making = none) (hfree : ∀ a r, pc ≠ .free a r) (htake : ∀ s a, pc ≠ .take s a)
    (hstep : st.acquire t s pc = .ok (st', evs)) : Inv st' (log ++ evs) := by
  unfold Locking.acquire at hstep
  split at hstep
  · next hidle hlock =>
    cases hstep
    refine ⟨h.bodies.acquire hidle hlock hs hholds hcharged haimed hmaking htake, ?_⟩
    refine h.counts.skip rfl ?_ hfree rfl (fun _ => Iff.rfl) ?_ fun s a ha => absurd ha (htake s a)
    · intro a r hr
      rw [hidle] at hr
      cases hr
    · intro a
      rw [List.append_nil]
      exact ⟨rfl, rfl, rfl, rfl⟩
  · cases hstep

/-- The partition a thread finds when it holds the lock. -/
theorem Bodies.held (h : Bodies st) (hholds : (st.pc t).holds = some s) :
    s < st.table.nservers ∧ Shape (st.table.part s) st.table.mem (st.pc t).charged := by
  have hs := h.inside t s hholds
  have hshape := h.shape s hs
  rw [h.charged_of_holds hholds] at hshape
  exact ⟨hs, hshape⟩

/-- The body of `locking_hash_lookup`. -/
theorem Inv.lookup (h : Inv st log) {key : ℕ} (hpc : st.pc t = .lookup s key) {alloc : Option ℕ}
    {tscs : List ℕ} (hstep : st.next t alloc tscs = .ok (st', evs)) : Inv st' (log ++ evs) := by
  have hholds : (st.pc t).holds = some s := by rw [hpc]; rfl
  obtain ⟨hs, hshape⟩ := h.bodies.held hholds
  rw [hpc] at hshape
  have hold : ∀ a r, st.pc t ≠ .free a r := fun a r hr => by rw [hpc] at hr; cases hr
  have helems := hashLookup_elems (st.table.part s) st.table.mem key
  have hsame : ∀ a, a ∈ (hashLookup (st.table.part s) st.table.mem key).2.elems
      ↔ a ∈ (st.table.part s).elems := fun a => by rw [helems]
  have hshape' := hashLookup_shape hshape key
  simp only [next, hpc] at hstep
  split at hstep
  · next e hfound =>
    have hin := ((hashLookup_eq_some hshape key e).mp hfound).1
    split at hstep
    · next hlive =>
      cases hstep
      by_cases hready : isValueReady st.table.mem e = true
      · rw [if_pos hready]
        have hzero := (h.counts.account e).ready hlive (of_decide_eq_true hready)
        refine h.within (.take s e) hholds hold nofun rfl hshape' hsame nofun nofun ?_
        rintro s' a ⟨⟩
        exact ⟨(hsame e).mpr hin, hzero⟩
      · rw [if_neg hready]
        exact h.within (.leave s 0) hholds hold nofun rfl hshape' hsame nofun nofun nofun
    · cases hstep
  · cases hstep
    exact h.within (.leave s 0) hholds hold nofun rfl hshape' hsame nofun nofun nofun

/-- The element of the key is overwritten, or there is none. -/
theorem Inv.insert (h : Inv st log) {c : InsertCall} (hpc : st.pc t = .insert c) {alloc : Option ℕ}
    {tscs : List ℕ} (hstep : st.next t alloc tscs = .ok (st', evs)) : Inv st' (log ++ evs) := by
  have hholds : (st.pc t).holds = some c.s := by rw [hpc]; rfl
  obtain ⟨hs, hshape⟩ := h.bodies.held hholds
  rw [hpc] at hshape
  have hold : ∀ a r, st.pc t ≠ .free a r := fun a r hr => by rw [hpc] at hr; cases hr
  have haimed := h.bodies.aimed t c (by rw [hpc]; rfl)
  have helems := hashLookup_elems (st.table.part c.s) st.table.mem c.key
  have hshape' := hashLookup_shape hshape c.key
  simp only [next, hpc] at hstep
  split at hstep
  · next e hfound =>
    obtain ⟨st₁, hrem, heq⟩ := Outcome.map_ok.mp hstep
    cases heq
    obtain ⟨hin, hkey⟩ := (hashLookup_eq_some hshape c.key e).mp hfound
    refine h.remove (Or.inl rfl) hholds hold hshape' helems (helems ▸ hin) haimed ?_ hrem
    intro a ha hne hkey'
    exact hne (hshape.key_inj a (helems ▸ ha) e hin (hkey'.trans hkey.symm))
  · next hnone =>
    cases hstep
    have habsent := (hashLookup_eq_none hshape c.key).mp hnone
    refine h.within (.charge c) hholds hold nofun rfl hshape' (fun a => by rw [helems]) ?_ ?_ nofun
    · rintro c' ⟨⟩
      exact haimed
    · rintro c' ⟨⟩ a ha
      exact habsent a (helems ▸ ha)

/-- The partition is charged with the size of the new element. -/
theorem Inv.charge (h : Inv st log) {c : InsertCall} (hpc : st.pc t = .charge c) :
    Inv ((st.setPart c.s { st.table.part c.s with
      size := add64 (st.table.part c.s).size (elemSize c.size) }).setPc t (.evict c)) (log ++ []) := by
  have hholds : (st.pc t).holds = some c.s := by rw [hpc]; rfl
  obtain ⟨hs, hshape⟩ := h.bodies.held hholds
  rw [hpc] at hshape
  have hcharge := hshape.charge (elemSize c.size)
  rw [show (LockingPc.charge c).charged = 0 from rfl, Nat.zero_add] at hcharge
  refine h.within (.evict c) hholds ?_ nofun rfl hcharge (fun _ => Iff.rfl) ?_ ?_ nofun
  · intro a r hr
    rw [hpc] at hr
    cases hr
  · rintro c' ⟨⟩
    exact h.bodies.aimed t c (by rw [hpc]; rfl)
  · rintro c' ⟨⟩
    exact h.bodies.absent t c (by rw [hpc]; rfl)

/-- The eviction of a victim. -/
theorem Inv.evict (h : Inv st log) {c : InsertCall} (hpc : st.pc t = .evict c) {tscs : List ℕ}
    (hstep : st.evict t c tscs = .ok st') : Inv st' (log ++ []) := by
  have hholds : (st.pc t).holds = some c.s := by rw [hpc]; rfl
  obtain ⟨hs, hshape⟩ := h.bodies.held hholds
  rw [hpc] at hshape
  unfold Locking.evict at hstep
  split at hstep
  · obtain ⟨⟨l, rest⟩, hvictim, hrem⟩ := Outcome.bind_ok.mp hstep
    have hin := victim_mem hshape hvictim
    refine h.remove (Or.inr rfl) hholds ?_ hshape rfl hin (h.bodies.aimed t c (by rw [hpc]; rfl)) ?_ hrem
    · intro a r hr
      rw [hpc] at hr
      cases hr
    · intro a ha _
      exact h.bodies.absent t c (by rw [hpc]; rfl) a ha
  · cases hstep

/-- The `while (1)` loop of `hash_insert`. -/
theorem Inv.round (h : Inv st log) {c : InsertCall} (hpc : st.pc t = .evict c) {alloc : Option ℕ}
    {tscs : List ℕ} (hstep : st.next t alloc tscs = .ok (st', evs)) : Inv st' (log ++ evs) := by
  simp only [next, hpc] at hstep
  split at hstep
  · obtain ⟨⟨got, m⟩, halloc, hstep⟩ := Outcome.bind_ok.mp hstep
    cases got with
    | some e =>
        obtain ⟨hfresh, rfl⟩ := memalign_some halloc
        cases hstep
        exact h.link hpc hfresh rfl
    | none =>
        obtain ⟨st₁, hevict, heq⟩ := Outcome.map_ok.mp hstep
        cases heq
        exact h.evict hpc hevict
  · obtain ⟨st₁, hevict, heq⟩ := Outcome.map_ok.mp hstep
    cases heq
    exact h.evict hpc hevict

/-- `anderson_release`. -/
theorem Inv.leave (h : Inv st log) {value : ℕ} (hpc : st.pc t = .leave s value) :
    Inv ({ st with lock := Function.update st.lock s none }.setPc t .idle)
      (log ++ [.returned t value]) := by
  refine ⟨h.bodies.leave hpc, ?_⟩
  refine h.counts.skip rfl ?_ nofun rfl (fun _ => Iff.rfl) (fun a => tallies_returned log t value a) nofun
  intro a r hr
  rw [hpc] at hr
  cases hr

/-- A call in progress goes on. -/
theorem Inv.next (h : Inv st log) {alloc : Option ℕ} {tscs : List ℕ}
    (hstep : st.next t alloc tscs = .ok (st', evs)) : Inv st' (log ++ evs) := by
  cases hpc : st.pc t with
  | idle =>
      simp only [Locking.next, hpc] at hstep
      cases hstep
  | lookup s key => exact h.lookup hpc hstep
  | take s e =>
      simp only [Locking.next, hpc] at hstep
      split at hstep
      · cases hstep
        exact h.take hpc
      · cases hstep
  | insert c => exact h.insert hpc hstep
  | charge c =>
      simp only [Locking.next, hpc] at hstep
      cases hstep
      exact h.charge hpc
  | evict c => exact h.round hpc hstep
  | free e ret =>
      simp only [Locking.next, hpc] at hstep
      obtain ⟨m, hfree, hstep⟩ := Outcome.bind_ok.mp hstep
      cases hstep
      exact h.free hpc hfree
  | leave s value =>
      simp only [Locking.next, hpc] at hstep
      cases hstep
      exact h.leave hpc

/-- **One step of the threads.** -/
theorem Inv.step (h : Inv st log) (hn : 0 < st.table.nservers) {a : LockingAct} (hok : a.Ok log)
    (hstep : st.step a = .ok (st', evs)) : Inv st' (log ++ evs) := by
  cases a with
  | lookup t key =>
      exact h.acquire (.lookup (hashGetServer st.table.nservers key) key) (hashGetServer_lt hn key) rfl
        rfl nofun rfl nofun nofun hstep
  | insert t key size =>
      refine h.acquire (.insert ⟨hashGetServer st.table.nservers key, key, size⟩) (hashGetServer_lt hn key)
        rfl rfl ?_ rfl nofun nofun hstep
      rintro c ⟨⟩
      rfl
  | release t e =>
      simp only [Locking.step] at hstep
      split at hstep
      · next hidle =>
        obtain ⟨st₁, hup, heq⟩ := Outcome.map_ok.mp hstep
        cases heq
        exact h.release hidle hok hup
      · cases hstep
  | markReady t e =>
      simp only [Locking.step] at hstep
      split at hstep
      · next hidle =>
        obtain ⟨st₁, hup, heq⟩ := Outcome.map_ok.mp hstep
        cases heq
        exact h.markReady hidle hok hup
      · cases hstep
  | next t alloc tscs => exact h.next hstep

/-! ### No access to a freed element -/

/-- The threads that do not take the step stand where they stood, and the events of the step say
where its thread stood. -/
structure Frame (st st' : Locking) (t : ℕ) (evs : List LockingEvent) : Prop where
  nservers : st'.table.nservers = st.table.nservers
  own : ∃ pc, st'.pc = Function.update st.pc t pc
  took : ∀ t' e, .took t' e ∈ evs → ∃ s, st.pc t' = .take s e
  freed : ∀ t' e, .freed t' e ∈ evs → ∃ ret, st.pc t' = .free e ret

theorem Frame.quiet (hn : st'.table.nservers = st.table.nservers)
    (hpc : ∃ pc, st'.pc = Function.update st.pc t pc)
    (hevs : ∀ t' e, .took t' e ∉ evs ∧ .freed t' e ∉ evs) : Frame st st' t evs :=
  ⟨hn, hpc, fun t' e h => absurd h (hevs t' e).1, fun t' e h => absurd h (hevs t' e).2⟩

theorem update_frame {f : ℕ → ℕ} {ret : ReleaseRet} (hstep : st.update t e f ret = .ok st')
    (hevs : ∀ t' e, .took t' e ∉ evs ∧ .freed t' e ∉ evs) : Frame st st' t evs := by
  obtain ⟨-, rfl⟩ := update_ok hstep
  exact .quiet rfl ⟨_, rfl⟩ hevs

theorem remove_frame {p : Partition} {ret : ReleaseRet} (hstep : st.remove t s p e ret = .ok st') :
    Frame st st' t [] := by
  obtain ⟨-, rfl⟩ := update_ok hstep
  exact .quiet rfl ⟨_, rfl⟩ fun _ _ => ⟨nofun, nofun⟩

theorem evict_frame {c : InsertCall} {tscs : List ℕ} (hstep : st.evict t c tscs = .ok st') :
    Frame st st' t [] := by
  unfold Locking.evict at hstep
  split at hstep
  · obtain ⟨⟨l, rest⟩, -, hrem⟩ := Outcome.bind_ok.mp hstep
    exact remove_frame hrem
  · cases hstep

theorem acquire_frame {pc : LockingPc} (hstep : st.acquire t s pc = .ok (st', evs)) :
    Frame st st' t evs := by
  unfold Locking.acquire at hstep
  split at hstep
  · cases hstep
    exact .quiet rfl ⟨_, rfl⟩ fun _ _ => ⟨nofun, nofun⟩
  · cases hstep

theorem next_frame {alloc : Option ℕ} {tscs : List ℕ} (hstep : st.next t alloc tscs = .ok (st', evs)) :
    Frame st st' t evs := by
  cases hpc : st.pc t with
  | idle =>
      simp only [Locking.next, hpc] at hstep
      cases hstep
  | lookup s key =>
      simp only [Locking.next, hpc] at hstep
      split at hstep
      · split at hstep
        · cases hstep
          exact .quiet rfl ⟨_, rfl⟩ fun _ _ => ⟨nofun, nofun⟩
        · cases hstep
      · cases hstep
        exact .quiet rfl ⟨_, rfl⟩ fun _ _ => ⟨nofun, nofun⟩
  | take s e =>
      simp only [Locking.next, hpc] at hstep
      split at hstep
      · cases hstep
        refine ⟨rfl, ⟨_, rfl⟩, ?_, ?_⟩
        · intro t' e' hin
          cases List.mem_singleton.mp hin
          exact ⟨s, hpc⟩
        · intro t' e' hin
          cases List.mem_singleton.mp hin
      · cases hstep
  | insert c =>
      simp only [Locking.next, hpc] at hstep
      split at hstep
      · obtain ⟨st₁, hrem, heq⟩ := Outcome.map_ok.mp hstep
        cases heq
        exact remove_frame hrem
      · cases hstep
        exact .quiet rfl ⟨_, rfl⟩ fun _ _ => ⟨nofun, nofun⟩
  | charge c =>
      simp only [Locking.next, hpc] at hstep
      cases hstep
      exact .quiet rfl ⟨_, rfl⟩ fun _ _ => ⟨nofun, nofun⟩
  | evict c =>
      simp only [Locking.next, hpc] at hstep
      split at hstep
      · obtain ⟨⟨got, m⟩, -, hstep⟩ := Outcome.bind_ok.mp hstep
        cases got with
        | some e =>
            cases hstep
            refine .quiet rfl ⟨_, rfl⟩ fun t' e' => ⟨fun hin => ?_, fun hin => ?_⟩
            · cases List.mem_singleton.mp hin
            · cases List.mem_singleton.mp hin
        | none =>
            obtain ⟨st₁, hevict, heq⟩ := Outcome.map_ok.mp hstep
            cases heq
            exact evict_frame hevict
      · obtain ⟨st₁, hevict, heq⟩ := Outcome.map_ok.mp hstep
        cases heq
        exact evict_frame hevict
  | free e ret =>
      simp only [Locking.next, hpc] at hstep
      obtain ⟨m, -, hstep⟩ := Outcome.bind_ok.mp hstep
      cases hstep
      refine ⟨rfl, ⟨_, rfl⟩, ?_, ?_⟩
      · intro t' e' hin
        cases List.mem_singleton.mp hin
      · intro t' e' hin
        cases List.mem_singleton.mp hin
        exact ⟨ret, hpc⟩
  | leave s value =>
      simp only [Locking.next, hpc] at hstep
      cases hstep
      refine .quiet rfl ⟨_, rfl⟩ fun t' e' => ⟨fun hin => ?_, fun hin => ?_⟩
      · cases List.mem_singleton.mp hin
      · cases List.mem_singleton.mp hin

end Locking

/-- The thread that takes the step. -/
def LockingAct.thread : LockingAct → ℕ
  | .lookup t _ | .insert t _ _ | .release t _ | .markReady t _ | .next t _ _ => t

namespace Locking

theorem step_frame {a : LockingAct} (hstep : st.step a = .ok (st', evs)) :
    Frame st st' a.thread evs := by
  cases a with
  | lookup t key => exact acquire_frame hstep
  | insert t key size => exact acquire_frame hstep
  | release t e =>
      simp only [Locking.step] at hstep
      split at hstep
      · obtain ⟨st₁, hup, heq⟩ := Outcome.map_ok.mp hstep
        cases heq
        refine update_frame hup fun t' e' => ⟨fun hin => ?_, fun hin => ?_⟩
        · cases List.mem_singleton.mp hin
        · cases List.mem_singleton.mp hin
      · cases hstep
  | markReady t e =>
      simp only [Locking.step] at hstep
      split at hstep
      · obtain ⟨st₁, hup, heq⟩ := Outcome.map_ok.mp hstep
        cases heq
        refine update_frame hup fun t' e' => ⟨fun hin => ?_, fun hin => ?_⟩
        · cases List.mem_singleton.mp hin
        · cases List.mem_singleton.mp hin
      · cases hstep
  | next t alloc tscs => exact next_frame hstep

/-! ### Every run -/

/-- The invariant holds in every state of every run. -/
theorem Reach.inv {maxSize nservers : ℕ} {evictalgo : Evictalgo} (hn : 0 < nservers)
    (h : Locking.Reach maxSize nservers evictalgo st log) : Inv st log ∧ 0 < st.table.nservers := by
  refine Runs.Reach.invariant (P := fun st log => Inv st log ∧ 0 < st.table.nservers)
    ⟨⟨.init maxSize evictalgo, counts_init maxSize nservers evictalgo⟩, hn⟩ ?_ h
  intro st st' log evs a hI hok hstep
  refine ⟨hI.1.step hI.2 hok hstep, ?_⟩
  rw [(step_frame hstep).nservers]
  exact hI.2

/-- What the counts say in a state. -/
structure Exact (st : Locking) (log : List LockingEvent) : Prop where
  /-- Below `2 ^ 63` references the low bits are their number, and the mask is set until the
  inserter's `atomic_mark_ready`. -/
  count : ∀ e, st.table.mem.Live e → st.refs log e < DATA_READY_MASK →
    clearReadyMask (st.table.mem.elem e).refCount = st.refs log e ∧
      ((st.table.mem.elem e).refCount &&& DATA_READY_MASK ≠ 0 ↔ filling log e = 1)
  whole : ∀ e, st.table.mem.Live e →
    (st.table.mem.elem e).refCount = DATA_READY_MASK * filling log e + st.refs log e
  low : ∀ e, st.refs log e ≤ DATA_READY_MASK
  filling_le : ∀ e, filling log e ≤ 1
  held : ∀ e, 0 < handles log e → filling log e = 0
  live_iff : ∀ e, st.table.mem.Live e ↔ 0 < st.refs log e ∨ 0 < filling log e ∨ st.Freeing e
  zero_iff : ∀ e, st.table.mem.Live e → ((st.table.mem.elem e).refCount = 0 ↔ st.Freeing e)
  alone : ∀ t t' e ret ret', st.pc t = .free e ret → st.pc t' = .free e ret' → t = t'
  /-- Each element made at `e` has been freed once, but the live one. -/
  frees_eq : ∀ e, frees log e + (if st.table.mem.Live e then 1 else 0) = insertions log e

theorem Inv.zero_iff (h : Inv st log) (hlive : st.table.mem.Live e) :
    (st.table.mem.elem e).refCount = 0 ↔ st.Freeing e := by
  have hacc := h.counts.account e
  rw [hacc.word_eq hlive]
  constructor
  · intro hzero
    have hmask : 0 < DATA_READY_MASK := by decide
    have hfill : filling log e = 0 := by
      have hprod : DATA_READY_MASK * filling log e = 0 := by omega
      exact (Nat.mul_eq_zero.mp hprod).resolve_left hmask.ne'
    rcases hacc.live_iff.mp hlive with hpos | hpos | hfree
    · omega
    · omega
    · exact hfree
  · intro hfree
    obtain ⟨hrefs, hfill⟩ := hacc.idle hfree
    rw [hrefs, hfill, Nat.mul_zero]

theorem Inv.exact (h : Inv st log) : Exact st log where
  count e hlive hlt := (h.counts.account e).mask_eq hlive hlt
  whole e hlive := (h.counts.account e).word_eq hlive
  low e := (h.counts.account e).low
  filling_le e := (h.counts.account e).filling_le
  held e hpos := by
    by_contra hne
    have hzero := ((h.counts.account e).early (Nat.pos_of_ne_zero hne)).1
    omega
  live_iff e := (h.counts.account e).live_iff
  zero_iff _ hlive := h.zero_iff hlive
  alone := h.counts.free_inj
  frees_eq := h.counts.frees_eq

end Locking

/-- Thread 0 inserts key 5 and marks it ready, thread 1 looks it up, thread 0 overwrites it, thread 1
releases the old element. -/
def overwriteRun : List LockingAct := List.flatten [
  .insert 0 5 8 :: List.replicate 4 (.next 0 (some 64) []), [.markReady 0 64],
  .lookup 1 5 :: List.replicate 3 (.next 1 none []),
  .insert 0 5 8 :: List.replicate 4 (.next 0 (some 128) []), [.markReady 0 128],
  [.release 1 64, .next 1 none []]]

/-- No call is under way, and the table has the element at 64 under key 5, marked ready. -/
structure Locking.Resting (rc : ℕ) (st : Locking) (log : List LockingEvent) : Prop where
  nservers : st.table.nservers = 1
  pc : st.pc 0 = .idle
  lock : st.lock 0 = none
  five : HasFive st.table rc
  marked : filling log 64 = 0

/-- What the invariant says of it. -/
theorem Locking.Resting.account {st : Locking} {log : List LockingEvent} {rc : ℕ}
    (hrest : st.Resting rc log) (h : Locking.Reach 1024 1 .random st log) :
    st.table.mem.Live 64 ∧ st.refs log 64 = rc := by
  have hI := (Locking.Reach.inv Nat.one_pos h).1
  have hs : 0 < st.table.nservers := by
    rw [hrest.nservers]
    exact Nat.one_pos
  have hshape := hI.bodies.shape 0 hs
  have hin := ((hashLookup_eq_some hshape 5 64).mp (by rw [hrest.five.hashLookup])).1
  have hlive := hshape.live 64 hin
  have hword := (hI.counts.account 64).word_eq hlive
  rw [hrest.five.count, hrest.marked] at hword
  exact ⟨hlive, by omega⟩

theorem Locking.Reach.next {maxSize nservers : ℕ} {evictalgo : Evictalgo} {st st' : Locking}
    {log evs : List LockingEvent} (h : Locking.Reach maxSize nservers evictalgo st log) (a : LockingAct)
    (hok : a.Ok log) (hstep : st.step a = .ok (st', evs)) :
    Locking.Reach maxSize nservers evictalgo st' (log ++ evs) := Runs.Reach.step h hok hstep

/-- **One more lookup** whose value is kept. -/
theorem Locking.Resting.again {st : Locking} {log : List LockingEvent} {rc : ℕ}
    (hrest : st.Resting rc log) (h : Locking.Reach 1024 1 .random st log) (hlt : rc < 2 ^ 63) :
    ∃ st' log', Locking.Reach 1024 1 .random st' log' ∧ st'.Resting (rc + 1) log' := by
  obtain ⟨hlive, -⟩ := hrest.account h
  obtain ⟨hn, hpc, hlock, hfive, hmarked⟩ := hrest
  have hserver : hashGetServer st.table.nservers 5 = 0 := by rw [hn]; rfl
  let st₁ : Locking := { st with lock := Function.update st.lock 0 (some 0) }.setPc 0 (.lookup 0 5)
  let st₂ : Locking := (st₁.setPart 0 (st.table.part 0)).setPc 0 (.take 0 64)
  let st₃ : Locking := (st₂.setRefCount 64 (add64 (st.table.mem.elem 64).refCount 1)).setPc 0 (.leave 0 128)
  let st₄ : Locking := { st₃ with lock := Function.update st₃.lock 0 none }.setPc 0 .idle
  have hpc₁ : st₁.pc 0 = .lookup 0 5 := Function.update_self 0 _ st.pc
  have hpc₂ : st₂.pc 0 = .take 0 64 := Function.update_self 0 _ st₁.pc
  have hpc₃ : st₃.pc 0 = .leave 0 128 := Function.update_self 0 _ st₂.pc
  have h₁ : st.step (.lookup 0 5) = .ok (st₁, []) := by
    simp only [Locking.step, hserver, Locking.acquire, hpc, hlock]
    rfl
  have h₂ : st₁.step (.next 0 none []) = .ok (st₂, []) := by
    have hfound : hashLookup (st₁.table.part 0) st₁.table.mem 5 = (some 64, st.table.part 0) :=
      hfive.hashLookup
    have hready : isValueReady st₁.table.mem 64 = true := hfive.ready hlt
    have hlive₁ : st₁.table.mem.Live 64 := hlive
    simp only [Locking.step, Locking.next, hpc₁, hfound, if_pos hlive₁, hready, if_true]
    rfl
  have h₃ : st₂.step (.next 0 none []) = .ok (st₃, [.took 0 64]) := by
    have hlive₂ : st₂.table.mem.Live 64 := hlive
    simp only [Locking.step, Locking.next, hpc₂, if_pos hlive₂]
    rfl
  have h₄ : st₃.step (.next 0 none []) = .ok (st₄, [.returned 0 128]) := by
    simp only [Locking.step, Locking.next, hpc₃]
    rfl
  have hreach : Locking.Reach 1024 1 .random st₄ (log ++ [] ++ [] ++ [.took 0 64] ++ [.returned 0 128]) :=
    (((h.next (.lookup 0 5) trivial h₁).next (.next 0 none []) trivial h₂).next (.next 0 none [])
      trivial h₃).next (.next 0 none []) trivial h₄
  refine ⟨st₄, _, hreach, hn, Function.update_self 0 _ st₃.pc, Function.update_self 0 _ st₃.lock,
    hfive.add hlt, ?_⟩
  rw [(tallies_returned _ 0 128 64).2.1, (tallies_took _ 0 64 64).2.1, List.append_nil, List.append_nil]
  exact hmarked

theorem Locking.Resting.more {st : Locking} {log : List LockingEvent} {rc : ℕ}
    (hrest : st.Resting rc log) (h : Locking.Reach 1024 1 .random st log) (n : ℕ) (hle : rc + n ≤ 2 ^ 63) :
    ∃ st' log', Locking.Reach 1024 1 .random st' log' ∧ st'.Resting (rc + n) log' := by
  induction n with
  | zero => exact ⟨st, log, h, hrest⟩
  | succ n ih =>
      obtain ⟨st₁, log₁, h₁, hrest₁⟩ := ih (by omega)
      exact hrest₁.again h₁ (by omega)

end SmpHashTable
