import SmpHashTable.Fifo

/-!
# Reference counts

What `ref_count` says about an element, given the references to it: one of the table while the element
is in it, and one for each handle.  `RefInv` is the invariant of the table; `due` counts the handles,
each named by the message that gives it back.  Every operation of a server gets one lemma.

The count is 64 bits wide with the top bit used as flag, so `2 ^ 63` references run into the flag.
The lookup that makes that many finds the flag set on the next try, which keeps the count from going
any further; the invariant says exactly what happens there.
-/

namespace SmpHashTable

/-! ### The count of one element -/

/-- The value `rc` of the counter of an element with `refs` references; `pend` means that the element
is in the table and its insert has not been marked ready. -/
def RefOk (pend : Prop) (refs rc : ℕ) : Prop :=
  (pend ∧ refs = 2 ∧ rc = DATA_READY_MASK + 2) ∨ (¬ pend ∧ refs ≤ 2 ^ 63 ∧ rc = refs) ∨
    (¬ pend ∧ refs + 1 = 2 ^ 63 ∧ rc + 1 = 2 ^ 64)

theorem clearReadyMask_eq (x : ℕ) : clearReadyMask x = x % 2 ^ 63 :=
  Nat.and_two_pow_sub_one_eq_mod x 63

theorem and_readyMask (x : ℕ) : x &&& DATA_READY_MASK = x / 2 ^ 63 % 2 * 2 ^ 63 :=
  BitField.and_field x 63 1

namespace RefOk

variable {pend : Prop} {refs rc : ℕ}

theorem lt (h : RefOk pend refs rc) : rc < 2 ^ 64 := by
  rcases h with ⟨-, -, rfl⟩ | ⟨-, hle, rfl⟩ | ⟨-, -, h⟩
  · decide
  · omega
  · omega

/-- The low 63 bits count the references. -/
theorem low (h : RefOk pend refs rc) : rc % 2 ^ 63 = refs % 2 ^ 63 ∧ refs ≤ 2 ^ 63 := by
  rcases h with ⟨-, rfl, rfl⟩ | ⟨-, hle, rfl⟩ | ⟨-, h₁, h₂⟩
  · decide
  · exact ⟨rfl, hle⟩
  · omega

/-- The flag is set while the element is pending; only a count next to the top sets it otherwise. -/
theorem flag (h : RefOk pend refs rc) :
    (pend → rc &&& DATA_READY_MASK ≠ 0) ∧
      (refs + 1 < 2 ^ 63 → (rc &&& DATA_READY_MASK ≠ 0 ↔ pend)) := by
  rw [and_readyMask]
  rcases h with ⟨hp, rfl, rfl⟩ | ⟨hp, hle, rfl⟩ | ⟨hp, h₁, h₂⟩
  · exact ⟨fun _ => by decide, fun _ => ⟨fun _ => hp, fun _ => by decide⟩⟩
  · refine ⟨fun h => absurd h hp, fun hlt => ⟨fun hne => absurd ?_ hne, fun h => absurd h hp⟩⟩
    rw [Nat.div_eq_of_lt (by omega), Nat.zero_mod, Nat.zero_mul]
  · exact ⟨fun h => absurd h hp, fun hlt => by omega⟩

/-- `mp_release_value_` gives up one reference and frees the element with the last. -/
theorem release (h : RefOk pend refs rc) (hpos : 0 < refs) :
    RefOk False (refs - 1) (sub64 (clearReadyMask rc) 1) ∧
      (sub64 (clearReadyMask rc) 1 = 0 ↔ refs = 1) := by
  rw [clearReadyMask_eq]
  unfold sub64
  rcases h with ⟨-, rfl, rfl⟩ | ⟨-, hle, rfl⟩ | ⟨-, h₁, h₂⟩
  · exact ⟨Or.inr (Or.inl ⟨id, by decide, by decide⟩), by decide⟩
  · rcases Nat.lt_or_ge rc (2 ^ 63) with hlt | hge
    · rw [Nat.mod_eq_of_lt hlt]
      exact ⟨Or.inr (Or.inl ⟨id, by omega, by omega⟩), by omega⟩
    · obtain rfl : rc = 2 ^ 63 := by omega
      exact ⟨Or.inr (Or.inr ⟨id, by decide, by decide⟩), by decide⟩
  · obtain rfl : rc = 2 ^ 64 - 1 := by omega
    obtain rfl : refs = 2 ^ 63 - 1 := by omega
    exact ⟨Or.inr (Or.inl ⟨id, by decide, by decide⟩), by decide⟩

/-- A lookup that finds the flag clear takes a reference. -/
theorem lookup (h : RefOk pend refs rc) (hready : rc &&& DATA_READY_MASK = 0) :
    ¬ pend ∧ RefOk False (refs + 1) (add64 rc 1) := by
  rw [and_readyMask] at hready
  rcases h with ⟨-, rfl, rfl⟩ | ⟨hp, hle, rfl⟩ | ⟨-, h₁, h₂⟩
  · exact absurd hready (by decide)
  · refine ⟨hp, Or.inr (Or.inl ⟨id, ?_, ?_⟩)⟩
    · by_contra hgt
      obtain rfl : rc = 2 ^ 63 := by omega
      exact absurd hready (by decide)
    · rw [add64_eq (by omega)]
  · obtain rfl : rc = 2 ^ 64 - 1 := by omega
    exact absurd hready (by decide)

end RefOk

/-! ### The counts of all elements -/

/-- An element is live exactly while there are references to it, and its count tells their number. -/
structure Counted (m : Mem) (refs : ℕ → ℕ) (pend : ℕ → Prop) : Prop where
  live_iff : ∀ e, m.Live e ↔ 0 < refs e
  ok : ∀ e, 0 < refs e → RefOk (pend e) (refs e) (m.elem e).refCount

namespace Counted

variable {m m' : Mem} {refs refs' : ℕ → ℕ} {pend pend' : ℕ → Prop}

theorem congr (h : Counted m refs pend) (hrefs : ∀ e, refs' e = refs e)
    (hpend : ∀ e, 0 < refs e → (pend' e ↔ pend e)) : Counted m refs' pend' := by
  refine ⟨fun e => by rw [hrefs, h.live_iff], ?_⟩
  intro e he
  rw [hrefs] at he ⊢
  have hok := h.ok e he
  unfold RefOk at hok ⊢
  rwa [hpend e he]

/-- One reference to `e` is given up. -/
theorem release (h : Counted m refs pend) {e : ℕ} (he : 0 < refs e)
    (hrun : mpReleaseValue_ m e = .ok m') :
    Counted m' (Function.update refs e (refs e - 1)) fun a => pend a ∧ a ≠ e := by
  obtain ⟨-, helem, hblocks⟩ := storeRefCount_ok hrun
  have hframe := storeRefCount_frame hrun
  obtain ⟨hok, hzero⟩ := (h.ok e he).release he
  have hself : (m'.elem e).refCount = sub64 (clearReadyMask (m.elem e).refCount) 1 := by
    rw [helem]
    simp
  refine ⟨?_, ?_⟩
  · intro a
    by_cases ha : a = e
    · subst ha
      rw [Function.update_self, Mem.Live, hblocks]
      split
      · next h0 =>
        have hone := hzero.mp h0
        constructor
        · intro hmem
          obtain ⟨b, hb, hba⟩ := List.mem_map.mp hmem
          simp only [List.mem_filter] at hb
          simp [hba] at hb
        · intro hpos
          omega
      · next h0 =>
        have hne : refs a ≠ 1 := fun heq => h0 (hzero.mpr heq)
        have hlive := (h.live_iff a).mpr he
        exact ⟨fun _ => by omega, fun _ => hlive⟩
    · rw [Function.update_of_ne ha, hframe.live_of_ne ha, h.live_iff]
  · intro a hpos
    by_cases ha : a = e
    · subst ha
      rw [Function.update_self, hself]
      unfold RefOk at hok ⊢
      simpa using hok
    · rw [Function.update_of_ne ha] at hpos ⊢
      rw [hframe.elem_of_ne a ha]
      have hold := h.ok a hpos
      unfold RefOk at hold ⊢
      simpa [ha] using hold

/-- A lookup takes a reference to `e`. -/
theorem lookup (h : Counted m refs pend) {e : ℕ} (he : 0 < refs e) (hready : isValueReady m e = true) :
    ¬ pend e ∧ Counted (m.setElem e { m.elem e with refCount := add64 (m.elem e).refCount 1 })
      (Function.update refs e (refs e + 1)) pend := by
  have hclear : (m.elem e).refCount &&& DATA_READY_MASK = 0 := by simpa [isValueReady] using hready
  obtain ⟨hp, hok⟩ := (h.ok e he).lookup hclear
  refine ⟨hp, ?_, ?_⟩
  · intro a
    rw [Mem.setElem_live]
    by_cases ha : a = e
    · subst ha
      rw [Function.update_self, h.live_iff]
      omega
    · rw [Function.update_of_ne ha, h.live_iff]
  · intro a hpos
    by_cases ha : a = e
    · subst ha
      rw [Function.update_self, Mem.setElem_self]
      unfold RefOk at hok ⊢
      simpa [hp] using hok
    · rw [Function.update_of_ne ha] at hpos ⊢
      rw [Mem.setElem_of_ne m _ ha]
      exact h.ok a hpos

/-- A new element in a fresh block. -/
theorem insert (h : Counted m refs pend) {e : ℕ} (hlive : ∀ a, m'.Live a ↔ a = e ∨ m.Live a)
    (hother : ∀ a, a ≠ e → (m'.elem a).refCount = (m.elem a).refCount)
    (hself : (m'.elem e).refCount = DATA_READY_MASK ||| 2) :
    Counted m' (Function.update refs e 2) fun a => pend a ∧ a ≠ e ∨ a = e := by
  refine ⟨?_, ?_⟩
  · intro a
    rw [hlive]
    by_cases ha : a = e
    · simp [ha]
    · rw [Function.update_of_ne ha, h.live_iff]
      simp [ha]
  · intro a hpos
    by_cases ha : a = e
    · subst ha
      rw [Function.update_self, hself]
      exact Or.inl ⟨Or.inr rfl, rfl, rfl⟩
    · rw [Function.update_of_ne ha] at hpos ⊢
      rw [hother a ha]
      have hold := h.ok a hpos
      unfold RefOk at hold ⊢
      simpa [ha] using hold

/-- The table gives up its references to the elements it drops. -/
theorem drops {p p' : Partition} {rs : List Removal} {extra : ℕ} (h : Counted m refs pend)
    (hr : Shape p m extra) (hpos : ∀ a ∈ p.elems, 0 < refs a) (hd : Drops mpRelease p m rs p' m') :
    Counted m' (fun a => refs a - if a ∈ rs.map Removal.e then 1 else 0)
      fun a => pend a ∧ a ∉ rs.map Removal.e := by
  induction hd generalizing refs pend with
  | nil p m => simpa using h
  | @cons p m m₁ l rs p' m' hl hrel hd ih =>
      have hr₁ := hashRemove_release_shape hr hl (mpRelease.frame hrel)
      have hmem := mem_hashRemove_elems hr hl
      have h₁ := h.release (hpos l hl) hrel
      have hpos₁ : ∀ a ∈ (hashRemove p m l).elems, 0 < Function.update refs l (refs l - 1) a := by
        intro a ha
        obtain ⟨hap, hne⟩ := (hmem a).mp ha
        rw [Function.update_of_ne hne]
        exact hpos a hap
      -- an element is dropped once
      have hnot : l ∉ rs.map Removal.e := by
        intro hlr
        have hin := (hd.elems_perm hr₁).mem_iff.mpr (List.mem_append_left _ hlr)
        exact ((hmem l).mp hin).2 rfl
      refine (ih h₁ hr₁ hpos₁).congr ?_ ?_
      · intro a
        by_cases ha : a = l
        · subst ha
          simp [removal, hnot]
        · simp [removal, ha]
      · intro a _
        by_cases ha : a = l
        · simp [removal, ha]
        · simp [removal, ha]

end Counted

/-- **An insert** gives up the table's references to the elements it removes, and makes an element
with two references in a block to which there were none. -/
theorem hashInsert_counted {p : Partition} {m : Mem} {refs : ℕ → ℕ} {pend : ℕ → Prop} {key : ℕ} {size : ℤ}
    {o : Oracle} {r : Inserted} (hr : Shape p m 0) (hc : Counted m refs pend)
    (hpos : ∀ a ∈ p.elems, 0 < refs a) (h : hashInsert p m key size mpRelease o = .ok r) :
    Counted (r.m.setElem r.e { r.m.elem r.e with refCount := DATA_READY_MASK ||| 2 })
      (Function.update (fun a => refs a - if a ∈ r.removed.map Removal.e then 1 else 0) r.e 2)
      (fun a => (pend a ∧ a ∉ r.removed.map Removal.e) ∧ a ≠ r.e ∨ a = r.e) ∧
      refs r.e - (if r.e ∈ r.removed.map Removal.e then 1 else 0) = 0 := by
  obtain ⟨old, p₁, m₁, rs, p₂, m₂, -, hd₁, hd₂, -, hfresh, hrem, hlink, hr₁⟩ := hashInsert_ok hr h
  have hr₀ := hashLookup_shape hr key
  have hpos₀ : ∀ a ∈ (hashLookup p m key).2.elems, 0 < refs a := by
    rw [hashLookup_elems]
    exact hpos
  have hperm₁ := hd₁.elems_perm hr₀
  have hperm₂ := hd₂.elems_perm hr₁
  have hdis := List.disjoint_of_nodup_append (hperm₁.nodup_iff.mp hr₀.elems_nodup)
  have hc₁ := hc.drops hr₀ hpos₀ hd₁
  have hpos₁ : ∀ a ∈ p₁.elems, 0 < refs a - if a ∈ old.map Removal.e then 1 else 0 := by
    intro a ha
    rw [if_neg fun hold => hdis hold ha]
    exact hpos₀ a (hperm₁.mem_iff.mpr (List.mem_append_right _ ha))
  have hc₂ := hc₁.drops hr₁ hpos₁ hd₂
  -- what is removed later is not what was overwritten
  have hrs : ∀ a ∈ rs.map Removal.e, a ∉ old.map Removal.e :=
    fun a ha hold => hdis hold (hperm₂.mem_iff.mpr (List.mem_append_left _ ha))
  have hsum : ∀ a, refs a - (if a ∈ r.removed.map Removal.e then 1 else 0)
      = refs a - (if a ∈ old.map Removal.e then 1 else 0) - if a ∈ rs.map Removal.e then 1 else 0 := by
    intro a
    rw [hrem, List.map_append]
    by_cases ha : a ∈ rs.map Removal.e
    · have hnot := hrs a ha
      simp [ha, hnot]
    · by_cases hold : a ∈ old.map Removal.e
      · simp [ha, hold]
      · simp [ha, hold]
  have hcm : Counted m₂ (fun a => refs a - if a ∈ r.removed.map Removal.e then 1 else 0)
      fun a => pend a ∧ a ∉ r.removed.map Removal.e := by
    refine hc₂.congr hsum (fun a _ => ?_)
    rw [hrem, List.map_append, List.mem_append, not_or, and_assoc]
  have hm : r.m = (linkElem p₂ { m₂ with blocks := (r.e, CACHELINE) :: m₂.blocks } r.e key
      (elemSize size)).2 := congrArg Prod.snd hlink
  refine ⟨hcm.insert ?_ ?_ (by simp), ?_⟩
  · intro a
    rw [Mem.setElem_live, hm]
    simp [linkElem, Mem.Live, Mem.setElem]
  · intro a ha
    rw [Mem.setElem_of_ne _ _ ha, hm]
    simp [linkElem, Mem.setElem, ha]
  · by_contra hne
    exact hfresh.not_live ((hcm.live_iff r.e).mpr (Nat.pos_of_ne_zero hne))

/-! ### No use after free -/

section

variable {release : ReleaseValueF} {p : Partition} {m : Mem} {extra esize : ℕ}

/-- There is a victim whenever the assertion before the eviction holds. -/
theorem victim_ne_fault (hr : Shape p m esize) (hlt : esize < 2 ^ 64) (hgt : p.size > esize)
    (tscs : List ℕ) : victim p tscs ≠ .error .fault := by
  have hrandom : ∀ tscs, randomVictim p tscs ≠ .error .fault := by
    intro tscs
    induction tscs with
    | nil => simp [randomVictim]
    | cons a tscs ih =>
        rw [randomVictim]
        split
        · simp
        · exact ih
  intro hv
  unfold victim at hv
  cases he : p.evictalgo with
  | random =>
      rw [he] at hv
      exact hrandom tscs hv
  | lru =>
      simp only [he] at hv
      split at hv
      · cases hv
      · next hlast =>
        -- without elements the partition is charged with the new one only
        have hnil : p.lru = [] := List.getLast?_eq_none_iff.mp hlast
        have helems : p.elems = [] := by
          refine List.eq_nil_iff_forall_not_mem.mpr fun a ha => ?_
          have hmem := (hr.lru_mem he a).mpr ha
          rw [hnil] at hmem
          cases hmem
        have hsize := hr.size_mod
        rw [helems, List.map_nil, List.sum_nil, Nat.zero_add, Nat.mod_eq_of_lt hlt] at hsize
        omega

theorem release_ne_fault {e : ℕ} (hlive : m.Live e) : release.run m e ≠ .error .fault := by
  obtain ⟨m', hm'⟩ := release.total hlive
  rw [hm']
  simp

theorem evictOne_ne_fault (hr : Shape p m esize) (hlt : esize < 2 ^ 64) (tscs : List ℕ) :
    evictOne release esize tscs p m ≠ .error .fault := by
  intro h
  unfold evictOne at h
  split at h
  · next hgt =>
    rcases Outcome.bind_error.mp h with hv | ⟨⟨l, rest⟩, hv, h⟩
    · exact victim_ne_fault hr hlt hgt tscs hv
    · rcases Outcome.bind_error.mp h with hrel | ⟨m', -, h⟩
      · exact release_ne_fault (hr.live l (victim_mem hr hv)) hrel
      · cases h
  · cases h

theorem evictLoop_ne_fault {boundary : ℕ} (fuel : ℕ) (hlt : esize < 2 ^ 64) (allocs : List (Option ℕ))
    (tscs : List ℕ) (removed : List Removal) (hr : Shape p m esize) :
    evictLoop release boundary esize fuel allocs tscs p m removed ≠ .error .fault := by
  induction fuel generalizing allocs tscs p m removed with
  | zero => simp [evictLoop]
  | succ fuel ih =>
      have round : ∀ allocs, (evictOne release esize tscs p m >>= fun x =>
          evictLoop release boundary esize fuel allocs x.2.1 x.2.2.1 x.2.2.2 (removed ++ [x.1]))
            ≠ .error .fault := by
        intro allocs h
        rcases Outcome.bind_error.mp h with h | ⟨⟨r, rest, p₁, m₁⟩, hone, h⟩
        · exact evictOne_ne_fault hr hlt tscs h
        · obtain ⟨l, hl, hrel, rfl, -⟩ := evictOne_ok hr hone
          exact ih _ _ _ (hashRemove_release_shape hr hl (release.frame hrel)) h
      intro h
      rw [evictLoop] at h
      split at h
      · rcases Outcome.bind_error.mp h with h | ⟨⟨got, m₁⟩, halloc, h⟩
        · exact memalign_ne_fault _ _ _ _ h
        · cases got with
          | some a => cases h
          | none =>
              rw [memalign_none halloc] at h
              exact round _ h
      · exact round _ h

theorem elemSize_lt (size : ℤ) : elemSize size < 2 ^ 64 :=
  lt_of_le_of_lt Nat.and_le_left (Nat.mod_lt _ (by decide))

/-- `hash_insert` uses live blocks only. -/
theorem hashInsert_ne_fault (hr : Shape p m 0) (key : ℕ) (size : ℤ) (o : Oracle) :
    hashInsert p m key size release o ≠ .error .fault := by
  intro h
  rw [hashInsert_eq] at h
  have hr₀ := hashLookup_shape hr key
  have hold : ∀ e ∈ (hashLookup p m key).1, e ∈ (hashLookup p m key).2.elems := by
    intro e he
    rw [hashLookup_elems]
    exact ((hashLookup_eq_some hr key e).mp he).1
  rcases Outcome.bind_error.mp h with h | ⟨⟨p₁, m₁, old⟩, hdrop, h⟩
  · cases hfound : (hashLookup p m key).1 with
    | none =>
        rw [hfound] at h
        cases h
    | some e =>
        rw [hfound, dropOld] at h
        rcases Outcome.bind_error.mp h with h | ⟨m', -, h⟩
        · exact release_ne_fault (hr₀.live e (hold e hfound)) h
        · cases h
  · obtain ⟨-, hd⟩ := dropOld_ok hold hdrop
    have hr₁ := (hd.shape hr₀).charge (elemSize size)
    rw [Nat.zero_add] at hr₁
    rcases Outcome.bind_error.mp h with h | ⟨y, -, h⟩
    · exact evictLoop_ne_fault _ (elemSize_lt size) _ _ _ hr₁ h
    · cases h

end

/-! ### The table -/

/-- The element is in the table of its partition. -/
def Table.Has (t : Table) (e : ℕ) : Prop := ∃ s ∈ List.range t.nservers, e ∈ (t.part s).elems

instance Table.decidableHas (t : Table) (e : ℕ) : Decidable (t.Has e) :=
  inferInstanceAs (Decidable (∃ s ∈ List.range t.nservers, e ∈ (t.part s).elems))

/-- The references to `e`: one of the table, and one for each handle. -/
def Table.refs (t : Table) (due : Msg → ℕ) (e : ℕ) : ℕ :=
  (if t.Has e then 1 else 0) + due (.release e) + due (.markReady e)

/-- The element is in the table and its insert has not been marked ready. -/
def Table.Pending (t : Table) (due : Msg → ℕ) (e : ℕ) : Prop := t.Has e ∧ 0 < due (.markReady e)

structure RefInv (t : Table) (due : Msg → ℕ) : Prop where
  shape : ∀ s < t.nservers, Shape (t.part s) t.mem 0
  home : ∀ s < t.nservers, ∀ e ∈ (t.part s).elems, hashGetServer t.nservers (t.mem.elem e).key = s
  owned : ∀ e, t.mem.Live e → hashGetServer t.nservers (t.mem.elem e).key < t.nservers
  marking : ∀ e, due (.markReady e) ≤ 1
  early : ∀ e, 0 < due (.markReady e) → due (.release e) = 0
  counted : Counted t.mem (t.refs due) (t.Pending due)

section

variable {t t' : Table} {due due' : Msg → ℕ} {s e : ℕ}

theorem Table.has_of_mem (hs : s < t.nservers) (he : e ∈ (t.part s).elems) : t.Has e :=
  ⟨s, List.mem_range.mpr hs, he⟩

/-- An element of the table is in the partition of its key. -/
theorem RefInv.has_iff (h : RefInv t due) (hs : s < t.nservers)
    (hkey : hashGetServer t.nservers (t.mem.elem e).key = s) : t.Has e ↔ e ∈ (t.part s).elems := by
  constructor
  · rintro ⟨s', hs', he⟩
    have hhome := h.home s' (List.mem_range.mp hs') e he
    rw [hkey] at hhome
    rw [hhome]
    exact he
  · exact fun he => Table.has_of_mem hs he

/-- A handle keeps its element live. -/
theorem RefInv.live_of_due (h : RefInv t due)
    (hdue : 0 < due (.release e) ∨ 0 < due (.markReady e)) : t.mem.Live e := by
  refine (h.counted.live_iff e).mpr ?_
  unfold Table.refs
  omega

/-- Only the handles count, not the requests. -/
theorem RefInv.congr_due (h : RefInv t due) (hdue : ∀ m : Msg, m.isRequest = false → due' m = due m) :
    RefInv t due' := by
  have hrel : ∀ e, due' (.release e) = due (.release e) := fun e => hdue _ rfl
  have hmark : ∀ e, due' (.markReady e) = due (.markReady e) := fun e => hdue _ rfl
  refine ⟨h.shape, h.home, h.owned, ?_, ?_, h.counted.congr ?_ ?_⟩
  · intro e
    rw [hmark]
    exact h.marking e
  · intro e he
    rw [hmark] at he
    rw [hrel]
    exact h.early e he
  · intro e
    unfold Table.refs
    rw [hrel, hmark]
  · intro e _
    unfold Table.Pending
    rw [hmark]

/-- Changes of the table that concern no partition's elements and no element's key. -/
theorem RefInv.congr_table (h : RefInv t due) (hn : t'.nservers = t.nservers)
    (helems : ∀ s < t.nservers, (t'.part s).elems = (t.part s).elems)
    (hshape : ∀ s < t.nservers, Shape (t'.part s) t'.mem 0)
    (hkey : ∀ e, (t'.mem.elem e).key = (t.mem.elem e).key)
    (hlive : ∀ e, t'.mem.Live e → t.mem.Live e)
    (hmark : ∀ e, due' (.markReady e) ≤ 1)
    (hearly : ∀ e, 0 < due' (.markReady e) → due' (.release e) = 0)
    (hcounted : Counted t'.mem
      (fun e => (if t.Has e then 1 else 0) + due' (.release e) + due' (.markReady e))
      fun e => t.Has e ∧ 0 < due' (.markReady e)) : RefInv t' due' := by
  have hhas : ∀ e, t'.Has e ↔ t.Has e := by
    intro e
    unfold Table.Has
    rw [hn]
    constructor
    · rintro ⟨s, hs, he⟩
      exact ⟨s, hs, by rwa [helems s (List.mem_range.mp hs)] at he⟩
    · rintro ⟨s, hs, he⟩
      exact ⟨s, hs, by rwa [helems s (List.mem_range.mp hs)]⟩
  refine ⟨fun s hs => hshape s (hn ▸ hs), ?_, ?_, hmark, hearly, ?_⟩
  · intro s hs e he
    rw [hn] at hs ⊢
    rw [helems s hs] at he
    rw [hkey]
    exact h.home s hs e he
  · intro e he
    rw [hn, hkey]
    exact h.owned e (hlive e he)
  · refine hcounted.congr (fun e => ?_) (fun e _ => ?_)
    · unfold Table.refs
      simp only [hhas e]
    · unfold Table.Pending
      rw [hhas e]

/-- A release message is executed, which consumes its handle. -/
theorem RefInv.release (h : RefInv t due) {m : Msg} (hm : m = .release e ∨ m = .markReady e)
    (hpos : 0 < due m) (hdue : ∀ x, x.isRequest = false → due' x + (if m = x then 1 else 0) = due x)
    {mem : Mem} (hrun : mpReleaseValue_ t.mem e = .ok mem) : RefInv { t with mem := mem } due' := by
  have hframe := storeRefCount_frame hrun
  have hrel := fun a => hdue (.release a) rfl
  have hmark := fun a => hdue (.markReady a) rfl
  have hrefs : 0 < t.refs due e := by
    unfold Table.refs
    rcases hm with rfl | rfl <;> omega
  have hmark' : ∀ a, due' (.markReady a) ≤ due (.markReady a) := fun a => by have := hmark a; omega
  have hrel' : ∀ a, due' (.release a) ≤ due (.release a) := fun a => by have := hrel a; omega
  have hcounted : Counted mem
      (fun a => (if t.Has a then 1 else 0) + due' (.release a) + due' (.markReady a))
      fun a => t.Has a ∧ 0 < due' (.markReady a) := by
    refine (h.counted.release hrefs hrun).congr ?_ ?_
    · intro a
      have hra := hrel a
      have hma := hmark a
      by_cases ha : a = e
      · subst ha
        rw [Function.update_self]
        unfold Table.refs
        rcases hm with rfl | rfl
        · simp at hra hma
          omega
        · simp at hra hma
          omega
      · have ha' : ¬ e = a := fun he => ha he.symm
        rw [Function.update_of_ne ha]
        unfold Table.refs
        rcases hm with rfl | rfl
        · simp [ha'] at hra hma
          omega
        · simp [ha'] at hra hma
          omega
    · intro a _
      have hma := hmark a
      unfold Table.Pending
      by_cases ha : a = e
      · -- the element was marked with this message, or before
        subst ha
        have hone := h.marking a
        have hear := h.early a
        have hnone : due' (.markReady a) = 0 := by
          rcases hm with rfl | rfl
          · by_contra hne
            have := hmark' a
            have := hear (by omega)
            omega
          · simp at hma
            omega
        simp [hnone]
      · have ha' : ¬ e = a := fun he => ha he.symm
        have heq : due' (.markReady a) = due (.markReady a) := by
          rcases hm with rfl | rfl
          · simpa using hma
          · simpa [ha'] using hma
        simp [heq, ha]
  refine h.congr_table rfl (fun _ _ => rfl) ?_ (fun a => hframe.key a) ?_ ?_ ?_ hcounted
  · intro s hs
    refine (h.shape s hs).congr_mem (fun a _ => hframe.key a) (fun a _ => hframe.size a) ?_
    intro a ha
    refine (hcounted.live_iff a).mpr ?_
    simp only [if_pos (Table.has_of_mem hs ha)]
    omega
  · intro a ha
    by_cases hae : a = e
    · rw [hae]
      exact hframe.live_before
    · exact (hframe.live_of_ne hae).mp ha
  · exact fun a => (hmark' a).trans (h.marking a)
  · intro a ha
    have h0 := h.early a (lt_of_lt_of_le ha (hmark' a))
    have := hrel' a
    omega

theorem Table.setPart_part_self (s : ℕ) (p : Partition) (m : Mem) : (t.setPart s p m).part s = p := by
  simp [Table.setPart]

theorem Table.setPart_part_of_ne {s' : ℕ} (p : Partition) (m : Mem) (hne : s' ≠ s) :
    (t.setPart s p m).part s' = t.part s' := by
  simp [Table.setPart, hne]

/-- A lookup is executed; a pointer in the response is a new handle. -/
theorem RefInv.lookup (h : RefInv t due) (hs : s < t.nservers) {key : ℕ} {o : Oracle}
    {resp : Option ℕ} {removed : List Removal}
    (hdue : ∀ x, x.isRequest = false →
      due' x = due x + if resp.bind (handleOf (.lookup key)) = some x then 1 else 0)
    (hop : serverOp t s o (.lookup key) = .ok (t', resp, removed)) : RefInv t' due' := by
  have helems : ∀ (mem : Mem) (s' : ℕ), s' < t.nservers →
      ((t.setPart s (hashLookup (t.part s) t.mem key).2 mem).part s').elems = (t.part s').elems := by
    intro mem s' _
    by_cases hne : s' = s
    · subst hne
      rw [Table.setPart_part_self, hashLookup_elems]
    · rw [Table.setPart_part_of_ne _ _ hne]
  have hshape : ∀ (s' : ℕ), s' < t.nservers →
      Shape ((t.setPart s (hashLookup (t.part s) t.mem key).2 t.mem).part s') t.mem 0 := by
    intro s' hs'
    by_cases hne : s' = s
    · subst hne
      rw [Table.setPart_part_self]
      exact hashLookup_shape (h.shape s' hs') key
    · rw [Table.setPart_part_of_ne _ _ hne]
      exact h.shape s' hs'
  -- without a pointer in the response nothing is taken
  have hmiss : resp = some 0 → t' = t.setPart s (hashLookup (t.part s) t.mem key).2 t.mem →
      RefInv t' due' := by
    rintro rfl rfl
    have hsame : ∀ x, x.isRequest = false → due' x = due x := by
      intro x hx
      rw [hdue x hx]
      simp [handleOf]
    refine h.congr_table rfl (helems t.mem) hshape (fun _ => rfl) (fun _ he => he) ?_ ?_ ?_
    · intro a
      rw [hsame _ rfl]
      exact h.marking a
    · intro a ha
      rw [hsame _ rfl] at ha ⊢
      exact h.early a ha
    · refine h.counted.congr (fun a => ?_) (fun a _ => ?_)
      · unfold Table.refs
        rw [hsame _ rfl, hsame _ rfl]
      · unfold Table.Pending
        rw [hsame _ rfl]
  simp only [serverOp] at hop
  split at hop
  · next e hfound =>
    split at hop
    · next hready =>
      cases hop
      obtain ⟨hmem, hkey⟩ := (hashLookup_eq_some (h.shape s hs) key e).mp hfound
      have hhas := Table.has_of_mem hs hmem
      have hrefs : 0 < t.refs due e := by
        unfold Table.refs
        rw [if_pos hhas]
        omega
      obtain ⟨hp, hcounted⟩ := h.counted.lookup hrefs hready
      have hmark0 : due (.markReady e) = 0 := by
        by_contra hne
        exact hp ⟨hhas, Nat.pos_of_ne_zero hne⟩
      have hhandle : (some (valuePtr e)).bind (handleOf (.lookup key)) = some (.release e) := by
        simp [handleOf, valuePtr, sizeofElem]
      have hmark : ∀ a, due' (.markReady a) = due (.markReady a) := by
        intro a
        rw [hdue _ rfl, hhandle]
        simp
      have hrel : ∀ a, due' (.release a) = due (.release a) + if e = a then 1 else 0 := by
        intro a
        rw [hdue _ rfl, hhandle]
        simp
      have hkeys : ∀ a, ((t.mem.setElem e { t.mem.elem e with
          refCount := add64 (t.mem.elem e).refCount 1 }).elem a).key = (t.mem.elem a).key := by
        intro a
        by_cases ha : a = e
        · subst ha
          simp
        · rw [Mem.setElem_of_ne _ _ ha]
      have hsizes : ∀ a, ((t.mem.setElem e { t.mem.elem e with
          refCount := add64 (t.mem.elem e).refCount 1 }).elem a).size = (t.mem.elem a).size := by
        intro a
        by_cases ha : a = e
        · subst ha
          simp
        · rw [Mem.setElem_of_ne _ _ ha]
      refine h.congr_table rfl (helems _) ?_ hkeys (fun _ he => he) ?_ ?_ ?_
      · intro s' hs'
        exact (hshape s' hs').congr_mem (fun a _ => hkeys a) (fun a _ => hsizes a)
          fun a ha => (hshape s' hs').live a ha
      · intro a
        rw [hmark]
        exact h.marking a
      · intro a ha
        rw [hmark] at ha
        have hne : ¬ e = a := by
          rintro rfl
          omega
        rw [hrel, if_neg hne]
        exact h.early a ha
      · refine hcounted.congr (fun a => ?_) (fun a _ => ?_)
        · rw [hrel, hmark]
          by_cases ha : a = e
          · subst ha
            rw [Function.update_self, if_pos rfl]
            unfold Table.refs
            omega
          · have ha' : ¬ e = a := fun he => ha he.symm
            rw [Function.update_of_ne ha, if_neg ha']
            rfl
        · unfold Table.Pending
          rw [hmark]
    · cases hop
      exact hmiss rfl rfl
  · cases hop
    exact hmiss rfl rfl

/-- An insert gets a block to which no handle refers. -/
theorem RefInv.insert_fresh (h : RefInv t due) (hs : s < t.nservers) {key : ℕ} {size : ℤ} {o : Oracle}
    {r : Inserted} (hrun : hashInsert (t.part s) t.mem key size mpRelease o = .ok r) :
    due (.release r.e) = 0 ∧ due (.markReady r.e) = 0 := by
  obtain ⟨rest, hpost⟩ := hashInsert_post (h.shape s hs) hrun
  have hpos : ∀ a ∈ (t.part s).elems, 0 < t.refs due a := by
    intro a ha
    unfold Table.refs
    rw [if_pos (Table.has_of_mem hs ha)]
    omega
  obtain ⟨-, hnew⟩ := hashInsert_counted (h.shape s hs) h.counted hpos hrun
  unfold Table.refs at hnew
  by_cases hin : r.e ∈ r.removed.map Removal.e
  · have hmem := hpost.before.mem_iff.mpr (List.mem_append_left _ hin)
    rw [if_pos hin, if_pos (Table.has_of_mem hs hmem)] at hnew
    omega
  · rw [if_neg hin] at hnew
    omega

/-- A lookup changes no key. -/
theorem serverOp_lookup_mem_key {key : ℕ} {o : Oracle} {resp : Option ℕ} {removed : List Removal}
    (hop : serverOp t s o (.lookup key) = .ok (t', resp, removed)) (a : ℕ) :
    (t'.mem.elem a).key = (t.mem.elem a).key := by
  simp only [serverOp] at hop
  split at hop
  · next e hfound =>
    split at hop
    · cases hop
      by_cases ha : a = e
      · subst ha
        simp [Table.setPart]
      · simp [Table.setPart, Mem.setElem_of_ne _ _ ha]
    · cases hop
      rfl
  · cases hop
    rfl

/-- An operation does not change the key of an element that has a handle. -/
theorem RefInv.key_of_due (h : RefInv t due) (hs : s < t.nservers) {op : Op} {o : Oracle}
    {resp : Option ℕ} {removed : List Removal} (hop : serverOp t s o op = .ok (t', resp, removed))
    (hdue : 0 < due (.release e) ∨ 0 < due (.markReady e)) :
    (t'.mem.elem e).key = (t.mem.elem e).key := by
  cases op with
  | lookup key => exact serverOp_lookup_mem_key hop e
  | insert key size =>
      obtain ⟨r, hrun, hop⟩ := Outcome.bind_ok.mp hop
      cases hop
      obtain ⟨rest, hpost⟩ := hashInsert_post (h.shape s hs) hrun
      have hne : e ≠ r.e := by
        rintro rfl
        obtain ⟨h₁, h₂⟩ := h.insert_fresh hs hrun
        omega
      show ((r.m.setElem r.e _).elem e).key = _
      rw [Mem.setElem_of_ne _ _ hne]
      exact hpost.key_of_ne e hne
  | release a =>
      obtain ⟨m, hrun, hop⟩ := Outcome.bind_ok.mp hop
      cases hop
      exact (storeRefCount_frame hrun).key e

/-- What stays in the partition was there, was not removed and is not the new element. -/
theorem InsertPost.kept {p : Partition} {m : Mem} {key esize : ℕ} {r : Inserted} {rest : List ℕ}
    (hpost : InsertPost p m key esize r rest) (hnodup : p.elems.Nodup) {a : ℕ} (ha : a ∈ rest) :
    a ∈ p.elems ∧ a ∉ r.removed.map Removal.e ∧ a ≠ r.e := by
  have hdis := List.disjoint_of_nodup_append (hpost.before.nodup_iff.mp hnodup)
  have hnd := (List.nodup_cons.mp (hpost.after.nodup_iff.mp hpost.shape.elems_nodup)).1
  exact ⟨hpost.before.mem_iff.mpr (List.mem_append_right _ ha), fun hin => hdis hin ha,
    fun heq => hnd (heq ▸ ha)⟩

/-- An element of another partition is neither removed by an insert nor the new element. -/
theorem RefInv.insert_other (h : RefInv t due) (hs : s < t.nservers) {key esize : ℕ} {r : Inserted}
    {rest : List ℕ} (hpost : InsertPost (t.part s) t.mem key esize r rest) {s' : ℕ}
    (hs' : s' < t.nservers) (hne : s' ≠ s) {a : ℕ} (ha : a ∈ (t.part s').elems) :
    a ∉ r.removed.map Removal.e ∧ a ≠ r.e := by
  have hhome := h.home s' hs' a ha
  have hout : a ∉ (t.part s).elems := fun hin => hne (hhome.symm.trans (h.home s hs a hin))
  exact hpost.other ((h.shape s' hs').live a ha) hout

/-- The elements of the table after an insert. -/
theorem RefInv.insert_has (h : RefInv t due) (hs : s < t.nservers) {key esize : ℕ} {r : Inserted}
    {rest : List ℕ} (hpost : InsertPost (t.part s) t.mem key esize r rest) (mem : Mem) (a : ℕ) :
    (t.setPart s r.p mem).Has a ↔ a = r.e ∨ t.Has a ∧ a ∉ r.removed.map Removal.e := by
  constructor
  · rintro ⟨s', hs', ha⟩
    have hs'' : s' < t.nservers := List.mem_range.mp hs'
    by_cases hne : s' = s
    · subst hne
      rw [Table.setPart_part_self] at ha
      rcases List.mem_cons.mp (hpost.after.mem_iff.mp ha) with rfl | ha
      · exact Or.inl rfl
      · obtain ⟨hin, hnot, -⟩ := hpost.kept (h.shape s' hs).elems_nodup ha
        exact Or.inr ⟨Table.has_of_mem hs hin, hnot⟩
    · rw [Table.setPart_part_of_ne _ _ hne] at ha
      exact Or.inr ⟨Table.has_of_mem hs'' ha, (h.insert_other hs hpost hs'' hne ha).1⟩
  · rintro (rfl | ⟨⟨s', hs', ha⟩, hnot⟩)
    · refine ⟨s, List.mem_range.mpr hs, ?_⟩
      rw [Table.setPart_part_self]
      exact hpost.after.mem_iff.mpr List.mem_cons_self
    · refine ⟨s', hs', ?_⟩
      by_cases hne : s' = s
      · subst hne
        rw [Table.setPart_part_self]
        have hin := (List.mem_append.mp (hpost.before.mem_iff.mp ha)).resolve_left hnot
        exact hpost.after.mem_iff.mpr (List.mem_cons_of_mem _ hin)
      · rw [Table.setPart_part_of_ne _ _ hne]
        exact ha

/-- An insert is executed; the pointer in the response is the new element's only handle. -/
theorem RefInv.insert (h : RefInv t due) (hs : s < t.nservers) {key : ℕ} {size : ℤ} {o : Oracle}
    {r : Inserted} (hkey : hashGetServer t.nservers key = s)
    (hrun : hashInsert (t.part s) t.mem key size mpRelease o = .ok r)
    (hdue : ∀ x, x.isRequest = false → due' x = due x + if x = .markReady r.e then 1 else 0) :
    RefInv (t.setPart s r.p
      (r.m.setElem r.e { r.m.elem r.e with refCount := DATA_READY_MASK ||| 2 })) due' := by
  obtain ⟨rest, hpost⟩ := hashInsert_post (h.shape s hs) hrun
  have hpos : ∀ a ∈ (t.part s).elems, 0 < t.refs due a := by
    intro a ha
    unfold Table.refs
    rw [if_pos (Table.has_of_mem hs ha)]
    omega
  obtain ⟨hcounted, -⟩ := hashInsert_counted (h.shape s hs) h.counted hpos hrun
  have hremoved : ∀ a ∈ r.removed.map Removal.e, a ∈ (t.part s).elems :=
    fun a ha => hpost.before.mem_iff.mpr (List.mem_append_left _ ha)
  have hnone := h.insert_fresh hs hrun
  have hrel : ∀ a, due' (.release a) = due (.release a) := by
    intro a
    rw [hdue _ rfl]
    simp
  have hmark : ∀ a, due' (.markReady a) = due (.markReady a) + if a = r.e then 1 else 0 := by
    intro a
    rw [hdue _ rfl]
    simp
  set mem := r.m.setElem r.e { r.m.elem r.e with refCount := DATA_READY_MASK ||| 2 } with hmem
  have hkeys : ∀ a, (mem.elem a).key = (r.m.elem a).key := by
    intro a
    by_cases ha : a = r.e
    · simp [hmem, ha]
    · rw [hmem, Mem.setElem_of_ne _ _ ha]
  have hsizes : ∀ a, (mem.elem a).size = (r.m.elem a).size := by
    intro a
    by_cases ha : a = r.e
    · simp [hmem, ha]
    · rw [hmem, Mem.setElem_of_ne _ _ ha]
  have hhas := h.insert_has hs hpost mem
  have hkept := fun a (ha : a ∈ rest) => hpost.kept (h.shape s hs).elems_nodup ha
  have hother := fun s' (hs' : s' < t.nservers) (hne : s' ≠ s) a (ha : a ∈ (t.part s').elems) =>
    h.insert_other hs hpost hs' hne ha
  refine ⟨?_, ?_, ?_, ?_, ?_, ?_⟩
  · intro s' hs'
    by_cases hne : s' = s
    · subst hne
      rw [Table.setPart_part_self]
      exact hpost.shape.congr_mem (fun a _ => hkeys a) (fun a _ => hsizes a)
        fun a ha => hpost.shape.live a ha
    · rw [Table.setPart_part_of_ne _ _ hne]
      have helem : ∀ a ∈ (t.part s').elems, r.m.elem a = t.mem.elem a := fun a ha =>
        hpost.elem_of_notMem a (hother s' hs' hne a ha).1 (hother s' hs' hne a ha).2
      refine (h.shape s' hs').congr_mem ?_ ?_ ?_
      · intro a ha
        rw [← helem a ha]
        exact hkeys a
      · intro a ha
        rw [← helem a ha]
        exact hsizes a
      · intro a ha
        exact (hpost.live_of_notMem a (hother s' hs' hne a ha).1 (hother s' hs' hne a ha).2).mpr
          ((h.shape s' hs').live a ha)
  · intro s' hs' a ha
    show hashGetServer t.nservers (mem.elem a).key = s'
    rw [hkeys]
    by_cases hne : s' = s
    · subst hne
      rw [Table.setPart_part_self] at ha
      rcases List.mem_cons.mp (hpost.after.mem_iff.mp ha) with rfl | ha
      · rw [hpost.key_eq]
        exact hkey
      · obtain ⟨hin, -, hae⟩ := hkept a ha
        rw [hpost.key_of_ne a hae]
        exact h.home s' hs a hin
    · rw [Table.setPart_part_of_ne _ _ hne] at ha
      rw [hpost.key_of_ne a (hother s' hs' hne a ha).2]
      exact h.home s' hs' a ha
  · intro a ha
    show hashGetServer t.nservers (mem.elem a).key < t.nservers
    rw [hkeys]
    by_cases hae : a = r.e
    · rw [hae, hpost.key_eq, hkey]
      exact hs
    · rw [hpost.key_of_ne a hae]
      have hlive := (hcounted.live_iff a).mp ha
      rw [Function.update_of_ne hae] at hlive
      exact h.owned a ((h.counted.live_iff a).mpr (by omega))
  · intro a
    have hone := h.marking a
    rw [hmark]
    by_cases hae : a = r.e
    · rw [hae, if_pos rfl, hnone.2]
    · rw [if_neg hae]
      exact hone
  · intro a ha
    rw [hmark] at ha
    rw [hrel]
    by_cases hae : a = r.e
    · rw [hae]
      exact hnone.1
    · rw [if_neg hae] at ha
      exact h.early a ha
  · refine hcounted.congr (fun a => ?_) (fun a _ => ?_)
    · unfold Table.refs
      rw [hrel, hmark]
      by_cases hae : a = r.e
      · subst hae
        rw [Function.update_self, if_pos ((hhas _).mpr (Or.inl rfl)), if_pos rfl, hnone.1, hnone.2]
      · rw [Function.update_of_ne hae, if_neg hae]
        by_cases hin : a ∈ r.removed.map Removal.e
        · have hno : ¬ (t.setPart s r.p mem).Has a := by
            rw [hhas a]
            exact fun hor => hor.elim hae fun hand => hand.2 hin
          rw [if_neg hno, if_pos (Table.has_of_mem hs (hremoved a hin)), if_pos hin]
          omega
        · have hiff : (t.setPart s r.p mem).Has a ↔ t.Has a := by
            rw [hhas a]
            exact ⟨fun hor => (hor.resolve_left hae).1, fun hin' => Or.inr ⟨hin', hin⟩⟩
          simp only [hiff, if_neg hin]
          omega
    · unfold Table.Pending
      rw [hmark, hhas a]
      by_cases hae : a = r.e
      · simp [hae]
      · simp [hae, and_assoc, and_comm]

end

end SmpHashTable
