import SmpHashTable.Partition

/-!
# The representation invariant of a partition

`Shape p m extra` ties the chains, the recency list and the size counter of a partition together,
the counter modulo `2 ^ 64`; `Rep` adds that the counter has not wrapped.  The counter may be ahead
of the elements by `extra` bytes: `hash_insert` charges the new element before it evicts and
allocates, so inside its loop `extra` is the size of the element to come.  Every function of
`partition.c` gets one lemma that says what it does to the invariant.
-/

namespace SmpHashTable

/-- Chains and recency list agree, and the size counter is right modulo `2 ^ 64`. -/
structure Shape (p : Partition) (m : Mem) (extra : ℕ) : Prop where
  nhash_pos : 0 < p.nhash
  bucket : ∀ b a, a ∈ p.table b → b < p.nhash ∧ hashGetBucket p (m.elem a).key = b
  chain_nodup : ∀ b, (p.table b).Nodup
  key_inj : ∀ a ∈ p.elems, ∀ a' ∈ p.elems, (m.elem a).key = (m.elem a').key → a = a'
  lru_nodup : p.evictalgo = .lru → p.lru.Nodup
  lru_mem : p.evictalgo = .lru → ∀ a, a ∈ p.lru ↔ a ∈ p.elems
  size_mod : p.size = ((p.elems.map fun a => (m.elem a).size).sum + extra) % 2 ^ 64
  live : ∀ a ∈ p.elems, m.Live a

/-- Chains, recency list and size counter agree, and the counter has not wrapped. -/
structure Rep (p : Partition) (m : Mem) (extra : ℕ) : Prop extends Shape p m extra where
  size_eq : p.size = (p.elems.map fun a => (m.elem a).size).sum + extra
  size_lt : p.size < 2 ^ 64

namespace Shape

variable {p : Partition} {m : Mem} {extra : ℕ}

theorem rep (h : Shape p m extra)
    (hlt : (p.elems.map fun a => (m.elem a).size).sum + extra < 2 ^ 64) : Rep p m extra := by
  have hsize := h.size_mod
  rw [Nat.mod_eq_of_lt hlt] at hsize
  exact ⟨h, hsize, hsize ▸ hlt⟩

theorem mem_elems (h : Shape p m extra) {a : ℕ} :
    a ∈ p.elems ↔ a ∈ p.table (hashGetBucket p (m.elem a).key) := by
  rw [Partition.elems, Lists.mem_cat]
  constructor
  · rintro ⟨b, -, hb⟩
    rwa [(h.bucket b a hb).2]
  · intro ha
    exact ⟨_, (h.bucket _ a ha).1, ha⟩

theorem mem_elems_of_chain (h : Shape p m extra) {a b : ℕ} (ha : a ∈ p.table b) : a ∈ p.elems :=
  Lists.mem_cat.mpr ⟨b, (h.bucket b a ha).1, ha⟩

theorem elems_nodup (h : Shape p m extra) : p.elems.Nodup := by
  refine Lists.nodup_cat h.chain_nodup ?_
  intro a b b' hb hb'
  rw [← (h.bucket b a hb).2, (h.bucket b' a hb').2]

theorem lru_perm (h : Shape p m extra) (hl : p.evictalgo = .lru) : p.lru.Perm p.elems :=
  (List.perm_ext_iff_of_nodup (h.lru_nodup hl) h.elems_nodup).mpr (h.lru_mem hl)

/-- The invariant reads only keys, sizes and liveness of the elements in the chains. -/
theorem congr_mem (h : Shape p m extra) {m' : Mem}
    (hkey : ∀ a ∈ p.elems, (m'.elem a).key = (m.elem a).key)
    (hsize : ∀ a ∈ p.elems, (m'.elem a).size = (m.elem a).size)
    (hlive : ∀ a ∈ p.elems, m'.Live a) : Shape p m' extra where
  nhash_pos := h.nhash_pos
  bucket := by
    intro b a hb
    rw [hkey a (h.mem_elems_of_chain hb)]
    exact h.bucket b a hb
  chain_nodup := h.chain_nodup
  key_inj := by
    intro a ha a' ha' heq
    rw [hkey a ha, hkey a' ha'] at heq
    exact h.key_inj a ha a' ha' heq
  lru_nodup := h.lru_nodup
  lru_mem := h.lru_mem
  size_mod := by
    rw [h.size_mod, List.map_congr_left hsize]
  live := hlive

/-- Reordering the recency list keeps the invariant. -/
theorem congr_lru (h : Shape p m extra) {l : List ℕ} (hl : p.evictalgo = .lru → l.Perm p.lru) :
    Shape { p with lru := l } m extra where
  nhash_pos := h.nhash_pos
  bucket := h.bucket
  chain_nodup := h.chain_nodup
  key_inj := h.key_inj
  lru_nodup := fun he => (hl he).nodup_iff.mpr (h.lru_nodup he)
  lru_mem := fun he a => (hl he).mem_iff.trans (h.lru_mem he a)
  size_mod := h.size_mod
  live := h.live

/-- Charging bytes to the counter. -/
theorem charge (h : Shape p m extra) (n : ℕ) :
    Shape { p with size := add64 p.size n } m (extra + n) where
  nhash_pos := h.nhash_pos
  bucket := h.bucket
  chain_nodup := h.chain_nodup
  key_inj := h.key_inj
  lru_nodup := h.lru_nodup
  lru_mem := h.lru_mem
  size_mod := by
    show add64 p.size n = _
    rw [add64, h.size_mod, Nat.mod_add_mod, Nat.add_assoc]
    rfl
  live := h.live

end Shape

theorem Rep.congr_mem {p : Partition} {m m' : Mem} {extra : ℕ} (h : Rep p m extra)
    (hkey : ∀ a ∈ p.elems, (m'.elem a).key = (m.elem a).key)
    (hsize : ∀ a ∈ p.elems, (m'.elem a).size = (m.elem a).size)
    (hlive : ∀ a ∈ p.elems, m'.Live a) : Rep p m' extra := by
  refine (h.toShape.congr_mem hkey hsize hlive).rep ?_
  rw [List.map_congr_left hsize, ← h.size_eq]
  exact h.size_lt

theorem Rep.charge {p : Partition} {m : Mem} {extra n : ℕ} (h : Rep p m extra)
    (hn : p.size + n < 2 ^ 64) : Rep { p with size := add64 p.size n } m (extra + n) := by
  refine (h.toShape.charge n).rep ?_
  show (p.elems.map fun a => (m.elem a).size).sum + (extra + n) < 2 ^ 64
  have := h.size_eq
  omega

/-- A partition with no elements is well formed, whatever the memory holds. -/
theorem emptyPartition_rep {nhash maxSize : ℕ} {evictalgo : Evictalgo} (m : Mem) (hn : 0 < nhash) :
    Rep (emptyPartition nhash maxSize evictalgo) m 0 := by
  have helems : (emptyPartition nhash maxSize evictalgo).elems = [] := Lists.cat_const_nil nhash
  refine Shape.rep ?_ (by simp [helems])
  exact
    { nhash_pos := hn
      bucket := by simp [emptyPartition]
      chain_nodup := by simp [emptyPartition]
      key_inj := by simp [helems]
      lru_nodup := by simp [emptyPartition]
      lru_mem := by intro _ a; rw [helems]; simp [emptyPartition]
      size_mod := by rw [helems]; rfl
      live := by simp [helems] }

/-! ### `hash_lookup` -/

theorem hashLookup_table (p : Partition) (m : Mem) (key : ℕ) :
    (hashLookup p m key).2.table = p.table ∧ (hashLookup p m key).2.nhash = p.nhash ∧
      (hashLookup p m key).2.size = p.size ∧ (hashLookup p m key).2.maxSize = p.maxSize ∧
      (hashLookup p m key).2.evictalgo = p.evictalgo := by
  unfold hashLookup lru
  split
  · split <;> simp
  · simp

theorem hashLookup_elems (p : Partition) (m : Mem) (key : ℕ) :
    (hashLookup p m key).2.elems = p.elems := by
  obtain ⟨ht, hn, -⟩ := hashLookup_table p m key
  rw [Partition.elems, ht, hn, Partition.elems]

section

variable {p : Partition} {m : Mem} {extra : ℕ}

/-- **What a lookup finds**: exactly the element of the chains with that key. -/
theorem hashLookup_eq_some (h : Shape p m extra) (key e : ℕ) :
    (hashLookup p m key).1 = some e ↔ e ∈ p.elems ∧ (m.elem e).key = key := by
  have hfst : (hashLookup p m key).1
      = (p.table (hashGetBucket p key)).find? fun e => (m.elem e).key = key := by
    unfold hashLookup
    split
    · next hf => exact hf.symm
    · next hf => exact hf.symm
  rw [hfst]
  constructor
  · intro hf
    have hkey : (m.elem e).key = key := by simpa using List.find?_some hf
    exact ⟨h.mem_elems_of_chain (List.mem_of_find?_eq_some hf), hkey⟩
  · rintro ⟨he, hkey⟩
    have hchain : e ∈ p.table (hashGetBucket p key) := by
      have := h.mem_elems.mp he
      rwa [hkey] at this
    cases hf : (p.table (hashGetBucket p key)).find? fun e => (m.elem e).key = key with
    | none =>
        have := List.find?_eq_none.mp hf e hchain
        simp [hkey] at this
    | some e' =>
        have hkey' : (m.elem e').key = key := by simpa using List.find?_some hf
        have he' := h.mem_elems_of_chain (List.mem_of_find?_eq_some hf)
        rw [h.key_inj e' he' e he (hkey'.trans hkey.symm)]

theorem hashLookup_eq_none (h : Shape p m extra) (key : ℕ) :
    (hashLookup p m key).1 = none ↔ ∀ e ∈ p.elems, (m.elem e).key ≠ key := by
  rw [Option.eq_none_iff_forall_ne_some]
  constructor
  · intro hn e he hkey
    exact hn e ((hashLookup_eq_some h key e).mpr ⟨he, hkey⟩)
  · intro hn e he
    obtain ⟨hmem, hkey⟩ := (hashLookup_eq_some h key e).mp he
    exact hn e hmem hkey

/-- The recency list after a lookup: the element found moves to the front. -/
theorem hashLookup_lru (p : Partition) (m : Mem) (key : ℕ) (hl : p.evictalgo = .lru) :
    (hashLookup p m key).2.lru =
      match (hashLookup p m key).1 with
      | some e => e :: p.lru.erase e
      | none => p.lru := by
  unfold hashLookup lru
  split <;> simp [hl]

theorem hashLookup_shape (h : Shape p m extra) (key : ℕ) : Shape (hashLookup p m key).2 m extra := by
  cases hf : (p.table (hashGetBucket p key)).find? fun e => (m.elem e).key = key with
  | none => simpa [hashLookup, hf] using h
  | some e =>
      have he := h.mem_elems_of_chain (List.mem_of_find?_eq_some hf)
      by_cases hl : p.evictalgo = .lru
      · have hperm : (e :: p.lru.erase e).Perm p.lru :=
          (List.perm_cons_erase ((h.lru_mem hl e).mpr he)).symm
        simpa [hashLookup, hf, hl, lru] using h.congr_lru (fun _ => hperm)
      · simpa [hashLookup, hf, hl] using h

theorem hashLookup_rep (h : Rep p m extra) (key : ℕ) : Rep (hashLookup p m key).2 m extra := by
  refine (hashLookup_shape h.toShape key).rep ?_
  rw [hashLookup_elems, ← h.size_eq]
  exact h.size_lt

/-! ### `hash_remove` -/

theorem hashRemove_elems_perm (h : Shape p m extra) {e : ℕ} (he : e ∈ p.elems) :
    p.elems.Perm (e :: (hashRemove p m e).elems) := by
  have hchain := h.mem_elems.mp he
  exact Lists.cat_erase_perm (h.bucket _ e hchain).1 p.table hchain

theorem mem_hashRemove_elems (h : Shape p m extra) {e : ℕ} (he : e ∈ p.elems) (a : ℕ) :
    a ∈ (hashRemove p m e).elems ↔ a ∈ p.elems ∧ a ≠ e := by
  have hperm := hashRemove_elems_perm h he
  have hnd := hperm.nodup_iff.mp h.elems_nodup
  rw [hperm.mem_iff, List.mem_cons]
  constructor
  · intro ha
    exact ⟨Or.inr ha, fun heq => (List.nodup_cons.mp hnd).1 (heq ▸ ha)⟩
  · rintro ⟨rfl | ha, hne⟩
    · exact absurd rfl hne
    · exact ha

theorem hashRemove_sum (h : Shape p m extra) {e : ℕ} (he : e ∈ p.elems) :
    (p.elems.map fun a => (m.elem a).size).sum
      = (m.elem e).size + ((hashRemove p m e).elems.map fun a => (m.elem a).size).sum := by
  have hsum := ((hashRemove_elems_perm h he).map fun a => (m.elem a).size).sum_eq
  rwa [List.map_cons, List.sum_cons] at hsum

theorem hashRemove_size (h : Rep p m extra) {e : ℕ} (he : e ∈ p.elems) :
    (m.elem e).size ≤ p.size ∧ (hashRemove p m e).size = p.size - (m.elem e).size := by
  have hsum := hashRemove_sum h.toShape he
  have hsize := h.size_eq
  have hle : (m.elem e).size ≤ p.size := by omega
  exact ⟨hle, sub64_eq hle h.size_lt⟩

theorem hashRemove_shape (h : Shape p m extra) {e : ℕ} (he : e ∈ p.elems) :
    Shape (hashRemove p m e) m extra := by
  have hmem := mem_hashRemove_elems h he
  refine
    { nhash_pos := h.nhash_pos
      bucket := ?_
      chain_nodup := ?_
      key_inj := fun a ha a' ha' => h.key_inj a ((hmem a).mp ha).1 a' ((hmem a').mp ha').1
      lru_nodup := ?_
      lru_mem := ?_
      size_mod := ?_
      live := fun a ha => h.live a ((hmem a).mp ha).1 }
  · intro b a hb
    simp only [hashRemove, Function.update_apply] at hb
    split at hb
    · next heq => exact heq ▸ h.bucket _ a (List.mem_of_mem_erase hb)
    · exact h.bucket b a hb
  · intro b
    simp only [hashRemove, Function.update_apply]
    split
    · exact (h.chain_nodup _).erase e
    · exact h.chain_nodup b
  · intro hl
    have hl' : p.evictalgo = .lru := hl
    simpa [hashRemove, hl'] using (h.lru_nodup hl').erase e
  · intro hl a
    have hl' : p.evictalgo = .lru := hl
    rw [hmem a, ← h.lru_mem hl' a]
    simp only [hashRemove, hl', if_true]
    rw [(h.lru_nodup hl').mem_erase_iff, and_comm]
  · have hsum := hashRemove_sum h he
    have hsize := h.size_mod
    show sub64 p.size (m.elem e).size = _
    unfold sub64
    omega

/-- Removal followed by the release of the removed element. -/
theorem hashRemove_release_shape (h : Shape p m extra) {e : ℕ} (he : e ∈ p.elems) {m' : Mem}
    (hf : ReleaseFrame m m' e) : Shape (hashRemove p m e) m' extra := by
  refine (hashRemove_shape h he).congr_mem (fun a _ => hf.key a) (fun a _ => hf.size a) ?_
  intro a ha
  obtain ⟨hmem, hne⟩ := (mem_hashRemove_elems h he a).mp ha
  exact (hf.live_of_ne hne).mpr (h.live a hmem)

theorem hashRemove_release_rep (h : Rep p m extra) {e : ℕ} (he : e ∈ p.elems) {m' : Mem}
    (hf : ReleaseFrame m m' e) : Rep (hashRemove p m e) m' extra := by
  refine (hashRemove_release_shape h.toShape he hf).rep ?_
  rw [List.map_congr_left fun a _ => hf.size a]
  have hsum := hashRemove_sum h.toShape he
  have hsize := h.size_eq
  have hlt := h.size_lt
  omega

end

/-! ### Eviction -/

/-- The elements of `rs` are removed from the partition and released, one after the other. -/
inductive Drops (release : ReleaseValueF) : Partition → Mem → List Removal → Partition → Mem → Prop
  | nil (p : Partition) (m : Mem) : Drops release p m [] p m
  | cons {p : Partition} {m m₁ : Mem} {l : ℕ} {rs : List Removal} {p' : Partition} {m' : Mem} :
      l ∈ p.elems → release.run m l = .ok m₁ → Drops release (hashRemove p m l) m₁ rs p' m' →
      Drops release p m (removal p m l :: rs) p' m'

section

variable {release : ReleaseValueF} {p p' : Partition} {m m' : Mem} {rs : List Removal} {extra : ℕ}

theorem Drops.fields (h : Drops release p m rs p' m') :
    p'.nhash = p.nhash ∧ p'.maxSize = p.maxSize ∧ p'.evictalgo = p.evictalgo ∧
      (∀ a, (m'.elem a).key = (m.elem a).key) ∧ ∀ a, (m'.elem a).size = (m.elem a).size := by
  induction h with
  | nil p m => simp
  | cons _ hrel _ ih =>
      obtain ⟨hn, hm, he, hk, hs⟩ := ih
      have hf := release.frame hrel
      exact ⟨hn, hm, he, fun a => (hk a).trans (hf.key a), fun a => (hs a).trans (hf.size a)⟩

theorem Drops.rep (h : Drops release p m rs p' m') (hr : Rep p m extra) : Rep p' m' extra := by
  induction h with
  | nil p m => exact hr
  | cons hl hrel _ ih => exact ih (hashRemove_release_rep hr hl (release.frame hrel))

theorem Drops.shape (h : Drops release p m rs p' m') (hr : Shape p m extra) : Shape p' m' extra := by
  induction h with
  | nil p m => exact hr
  | cons hl hrel _ ih => exact ih (hashRemove_release_shape hr hl (release.frame hrel))

theorem Drops.elems_perm (h : Drops release p m rs p' m') (hr : Shape p m extra) :
    p.elems.Perm (rs.map Removal.e ++ p'.elems) := by
  induction h with
  | nil p m => exact List.Perm.refl _
  | cons hl hrel _ ih =>
      have hr' := hashRemove_release_shape hr hl (release.frame hrel)
      exact (hashRemove_elems_perm hr hl).trans ((ih hr').cons _)

theorem Drops.size_le (h : Drops release p m rs p' m') (hr : Rep p m extra) : p'.size ≤ p.size := by
  induction h with
  | nil p m => exact le_rfl
  | cons hl hrel _ ih =>
      have hle := ih (hashRemove_release_rep hr hl (release.frame hrel))
      rw [(hashRemove_size hr hl).2] at hle
      omega

/-- The subtraction of `hash_remove` never wraps. -/
theorem Drops.no_wrap (h : Drops release p m rs p' m') (hr : Rep p m extra) :
    ∀ r ∈ rs, r.elemSize ≤ r.sizeBefore := by
  induction h with
  | nil p m => simp
  | cons hl hrel _ ih =>
      intro r hmem
      rcases List.mem_cons.mp hmem with rfl | hmem
      · exact (hashRemove_size hr hl).1
      · exact ih (hashRemove_release_rep hr hl (release.frame hrel)) r hmem

theorem Drops.live_of_notMem (h : Drops release p m rs p' m') {a : ℕ}
    (ha : a ∉ rs.map Removal.e) : m'.Live a ↔ m.Live a := by
  induction h with
  | nil p m => rfl
  | cons _ hrel _ ih =>
      rw [List.map_cons, List.mem_cons, not_or] at ha
      exact (ih ha.2).trans ((release.frame hrel).live_of_ne ha.1)

theorem Drops.elem_of_notMem (h : Drops release p m rs p' m') {a : ℕ}
    (ha : a ∉ rs.map Removal.e) : m'.elem a = m.elem a := by
  induction h with
  | nil p m => rfl
  | cons _ hrel _ ih =>
      rw [List.map_cons, List.mem_cons, not_or] at ha
      exact (ih ha.2).trans ((release.frame hrel).elem_of_ne a ha.1)

theorem randomVictim_mem (hr : Shape p m extra) {tscs rest : List ℕ} {l : ℕ}
    (h : randomVictim p tscs = .ok (l, rest)) : l ∈ p.elems := by
  induction tscs with
  | nil => simp [randomVictim] at h
  | cons t tscs ih =>
      rw [randomVictim] at h
      cases hc : (p.table (t % p.nhash)).head? with
      | none =>
          rw [hc] at h
          exact ih h
      | some l' =>
          rw [hc] at h
          simp only [Except.ok.injEq, Prod.mk.injEq] at h
          obtain ⟨rfl, -⟩ := h
          exact hr.mem_elems_of_chain (List.mem_of_mem_head? (by rw [hc]; rfl))

theorem victim_mem (hr : Shape p m extra) {tscs rest : List ℕ} {l : ℕ}
    (h : victim p tscs = .ok (l, rest)) : l ∈ p.elems := by
  unfold victim at h
  cases he : p.evictalgo with
  | random =>
      rw [he] at h
      exact randomVictim_mem hr h
  | lru =>
      rw [he] at h
      cases hlast : p.lru.getLast? with
      | none => simp [hlast] at h
      | some l' =>
          simp only [hlast, Except.ok.injEq, Prod.mk.injEq] at h
          obtain ⟨rfl, -⟩ := h
          exact (hr.lru_mem he _).mp (List.mem_of_getLast? hlast)

/-- One round of eviction drops one element. -/
theorem evictOne_ok (hr : Shape p m extra) {esize : ℕ} {r : Removal} {tscs rest : List ℕ}
    (h : evictOne release esize tscs p m = .ok (r, rest, p', m')) :
    ∃ l, l ∈ p.elems ∧ release.run m l = .ok m' ∧ p' = hashRemove p m l ∧ r = removal p m l := by
  unfold evictOne at h
  split at h
  · obtain ⟨⟨l', rest'⟩, hv, h⟩ := Outcome.bind_ok.mp h
    obtain ⟨m₁, hrel, h⟩ := Outcome.bind_ok.mp h
    simp only [Outcome.pure_ok, Except.ok.injEq, Prod.mk.injEq] at h
    obtain ⟨rfl, rfl, rfl, rfl⟩ := h
    exact ⟨l', victim_mem hr hv, hrel, rfl, rfl⟩
  · cases h

/-- **What the eviction loop can do**: drop some elements and then allocate a fresh block, once the
counter is within the limit. -/
theorem evictLoop_ok {boundary esize : ℕ} (fuel : ℕ) {allocs : List (Option ℕ)} {tscs : List ℕ}
    {removed removed' : List Removal} {e : ℕ} (hr : Shape p m extra)
    (h : evictLoop release boundary esize fuel allocs tscs p m removed
      = .ok (e, p', m', removed')) :
    ∃ rs m₁, removed' = removed ++ rs ∧ Drops release p m rs p' m₁ ∧ p'.size ≤ p'.maxSize ∧
      m₁.Fresh e CACHELINE ∧ m' = { m₁ with blocks := (e, CACHELINE) :: m₁.blocks } := by
  induction fuel generalizing allocs tscs p m removed with
  | zero => simp [evictLoop] at h
  | succ fuel ih =>
      -- both branches of the loop end in the same round of eviction
      have round : ∀ allocs, (evictOne release esize tscs p m >>= fun x =>
            evictLoop release boundary esize fuel allocs x.2.1 x.2.2.1 x.2.2.2 (removed ++ [x.1]))
            = .ok (e, p', m', removed') →
          ∃ rs m₁, removed' = removed ++ rs ∧ Drops release p m rs p' m₁ ∧ p'.size ≤ p'.maxSize ∧
            m₁.Fresh e CACHELINE ∧ m' = { m₁ with blocks := (e, CACHELINE) :: m₁.blocks } := by
        intro allocs hx
        obtain ⟨⟨r, rest, p₁, m₁⟩, hone, hx⟩ := Outcome.bind_ok.mp hx
        obtain ⟨l, hl, hrel, rfl, rfl⟩ := evictOne_ok hr hone
        obtain ⟨rs, m₂, rfl, hd, hrest⟩ := ih (hashRemove_release_shape hr hl (release.frame hrel)) hx
        exact ⟨removal p m l :: rs, m₂, by simp, .cons hl hrel hd, hrest⟩
      rw [evictLoop] at h
      split at h
      · next hle =>
        obtain ⟨⟨got, m₁⟩, halloc, hgot⟩ := Outcome.bind_ok.mp h
        cases got with
        | some a =>
            simp only [Outcome.pure_ok, Except.ok.injEq, Prod.mk.injEq] at hgot
            obtain ⟨rfl, rfl, rfl, rfl⟩ := hgot
            obtain ⟨hfresh, hm⟩ := memalign_some halloc
            exact ⟨[], m, by simp, .nil p m, hle, hfresh, hm⟩
        | none =>
            rw [memalign_none halloc] at hgot
            exact round _ hgot
      · exact round _ h

end

/-! ### `hash_insert` -/

section

variable {release : ReleaseValueF} {p : Partition} {m : Mem} {extra : ℕ}

/-- The partition after the overwrite and the charge of `hash_insert`. -/
theorem dropOld_ok {p' : Partition} {m' : Mem} {old : Option ℕ} {removed : List Removal}
    (hold : ∀ e ∈ old, e ∈ p.elems) (h : dropOld release p m old = .ok (p', m', removed)) :
    removed = (old.map (removal p m)).toList ∧ Drops release p m removed p' m' := by
  cases old with
  | none =>
      simp only [dropOld, Except.ok.injEq, Prod.mk.injEq] at h
      obtain ⟨rfl, rfl, rfl⟩ := h
      exact ⟨rfl, .nil p m⟩
  | some e =>
      obtain ⟨m₁, hrel, h⟩ := Outcome.bind_ok.mp h
      simp only [Outcome.pure_ok, Except.ok.injEq, Prod.mk.injEq] at h
      obtain ⟨rfl, rfl, rfl⟩ := h
      exact ⟨rfl, .cons (hold e rfl) hrel (.nil _ _)⟩

/-- **What an insert can do.**  It looks the key up, drops the element found, charges the new size,
drops further elements, takes a fresh block and links it. -/
theorem hashInsert_ok {key : ℕ} {size : ℤ} {o : Oracle} {r : Inserted} (hr : Shape p m 0)
    (h : hashInsert p m key size release o = .ok r) :
    ∃ old p₁ m₁ rs p₂ m₂,
      old = ((hashLookup p m key).1.map (removal (hashLookup p m key).2 m)).toList ∧
      Drops release (hashLookup p m key).2 m old p₁ m₁ ∧
      Drops release { p₁ with size := add64 p₁.size (elemSize size) } m₁ rs p₂ m₂ ∧
      p₂.size ≤ p₂.maxSize ∧ m₂.Fresh r.e CACHELINE ∧ r.removed = old ++ rs ∧
      (r.p, r.m) = linkElem p₂ { m₂ with blocks := (r.e, CACHELINE) :: m₂.blocks } r.e key
        (elemSize size) ∧
      Shape { p₁ with size := add64 p₁.size (elemSize size) } m₁ (elemSize size) := by
  unfold hashInsert at h
  obtain ⟨⟨p₁, m₁, old⟩, hold, h⟩ := Outcome.bind_ok.mp h
  obtain ⟨⟨e, p₂, m₂, removed⟩, hloop, h⟩ := Outcome.bind_ok.mp h
  simp only [Outcome.pure_ok, Except.ok.injEq] at h
  have hr₀ := hashLookup_shape hr key
  have hmem : ∀ e ∈ (hashLookup p m key).1, e ∈ (hashLookup p m key).2.elems := by
    intro e he
    rw [hashLookup_elems]
    exact ((hashLookup_eq_some hr key e).mp he).1
  obtain ⟨hold', hd₁⟩ := dropOld_ok hmem hold
  have hr₂ := (hd₁.shape hr₀).charge (elemSize size)
  rw [Nat.zero_add] at hr₂
  obtain ⟨rs, m₃, rfl, hd₂, hfit, hfresh, rfl⟩ := evictLoop_ok _ hr₂ hloop
  subst h
  exact ⟨old, p₁, m₁, rs, p₂, m₃, hold', hd₁, hd₂, hfit, hfresh, rfl, rfl, hr₂⟩

/-- Linking a fresh element whose key is not in the chains pays the charge. -/
theorem linkElem_shape {e key esize : ℕ} (n : ℕ) (hr : Shape p m esize) (hfresh : ¬ m.Live e)
    (hkey : ∀ a ∈ p.elems, (m.elem a).key ≠ key) :
    Shape (linkElem p { m with blocks := (e, n) :: m.blocks } e key esize).1
      (linkElem p { m with blocks := (e, n) :: m.blocks } e key esize).2 0 := by
  have hb : hashGetBucket p key < p.nhash := Nat.mod_lt _ hr.nhash_pos
  have hne : ∀ a ∈ p.elems, a ≠ e := fun a ha heq => hfresh (heq ▸ hr.live a ha)
  set p' := (linkElem p { m with blocks := (e, n) :: m.blocks } e key esize).1 with hp'
  set m' := (linkElem p { m with blocks := (e, n) :: m.blocks } e key esize).2 with hm'
  have helem : ∀ a ∈ p.elems, m'.elem a = m.elem a := fun a ha =>
    Mem.setElem_of_ne { m with blocks := (e, n) :: m.blocks } _ (hne a ha)
  have hself : m'.elem e = { m.elem e with key := key, size := esize } := by
    simp [hm', linkElem]
  have hperm : p'.elems.Perm (e :: p.elems) := Lists.cat_concat_perm hb p.table e
  refine
    { nhash_pos := hr.nhash_pos
      bucket := ?_
      chain_nodup := ?_
      key_inj := ?_
      lru_nodup := ?_
      lru_mem := ?_
      size_mod := ?_
      live := ?_ }
  · intro b a hba
    simp only [hp', linkElem, Function.update_apply] at hba
    split at hba
    · next heq =>
      rcases List.mem_append.mp hba with ha | ha
      · rw [helem a (hr.mem_elems_of_chain ha), heq]
        exact hr.bucket _ a ha
      · rw [List.mem_singleton.mp ha, hself, heq]
        exact ⟨hb, rfl⟩
    · rw [helem a (hr.mem_elems_of_chain hba)]
      exact hr.bucket b a hba
  · intro b
    simp only [hp', linkElem, Function.update_apply]
    split
    · rw [List.nodup_append]
      refine ⟨hr.chain_nodup _, List.nodup_singleton e, ?_⟩
      intro a ha x hx
      rw [List.mem_singleton.mp hx]
      exact hne a (hr.mem_elems_of_chain ha)
    · exact hr.chain_nodup b
  · intro a ha a' ha' heq
    rw [hperm.mem_iff, List.mem_cons] at ha ha'
    rcases ha with rfl | ha <;> rcases ha' with rfl | ha'
    · rfl
    · rw [hself, helem a' ha'] at heq
      exact absurd heq.symm (hkey a' ha')
    · rw [hself, helem a ha] at heq
      exact absurd heq (hkey a ha)
    · rw [helem a ha, helem a' ha'] at heq
      exact hr.key_inj a ha a' ha' heq
  · intro hl
    have hl' : p.evictalgo = .lru := hl
    simp only [hp', linkElem, hl', if_true]
    refine List.nodup_cons.mpr ⟨fun he => hne e ((hr.lru_mem hl' e).mp he) rfl, hr.lru_nodup hl'⟩
  · intro hl a
    have hl' : p.evictalgo = .lru := hl
    rw [hperm.mem_iff, List.mem_cons, ← hr.lru_mem hl' a]
    simp [hp', linkElem, hl']
  · have hsum := (hperm.map fun a => (m'.elem a).size).sum_eq
    rw [List.map_cons, List.sum_cons, hself,
      List.map_congr_left fun a ha => congrArg Elem.size (helem a ha)] at hsum
    show p.size = _
    rw [hr.size_mod, hsum, Nat.add_comm, Nat.add_zero]
  · intro a ha
    rw [hperm.mem_iff, List.mem_cons] at ha
    show a ∈ (((e, n) :: m.blocks).map Prod.fst)
    rcases ha with rfl | ha
    · simp
    · exact List.mem_cons_of_mem _ (hr.live a ha)

/-- What an insert leaves behind, in terms of the elements before it: `rest` are the elements kept. -/
structure InsertPost (p : Partition) (m : Mem) (key : ℕ) (esize : ℕ) (r : Inserted)
    (rest : List ℕ) : Prop where
  shape : Shape r.p r.m 0
  fits : r.p.size ≤ r.p.maxSize
  nhash_eq : r.p.nhash = p.nhash
  maxSize_eq : r.p.maxSize = p.maxSize
  evictalgo_eq : r.p.evictalgo = p.evictalgo
  before : p.elems.Perm (r.removed.map Removal.e ++ rest)
  after : r.p.elems.Perm (r.e :: rest)
  rest_key : ∀ a ∈ rest, (m.elem a).key ≠ key
  key_eq : (r.m.elem r.e).key = key
  size_eq : (r.m.elem r.e).size = esize
  pos : 0 < r.e
  bound : r.e + CACHELINE < 2 ^ 64
  live : r.m.Live r.e
  key_of_ne : ∀ a, a ≠ r.e → (r.m.elem a).key = (m.elem a).key
  elem_of_notMem : ∀ a, a ∉ r.removed.map Removal.e → a ≠ r.e → r.m.elem a = m.elem a
  live_of_notMem : ∀ a, a ∉ r.removed.map Removal.e → a ≠ r.e → (r.m.Live a ↔ m.Live a)
  fresh_of_notMem : r.e ∉ r.removed.map Removal.e → ¬ m.Live r.e

theorem hashInsert_post {key : ℕ} {size : ℤ} {o : Oracle} {r : Inserted} (hr : Shape p m 0)
    (h : hashInsert p m key size release o = .ok r) :
    ∃ rest, InsertPost p m key (elemSize size) r rest := by
  obtain ⟨old, p₁, m₁, rs, p₂, m₂, hold, hd₁, hd₂, hfit, hfresh, hrem, hlink, hr₁⟩ :=
    hashInsert_ok hr h
  have hr₀ := hashLookup_shape hr key
  have hr₂ := hd₂.shape hr₁
  have hperm₁ := hd₁.elems_perm hr₀
  have hperm₂ := hd₂.elems_perm hr₁
  rw [hashLookup_elems] at hperm₁
  have hbefore : p.elems.Perm (r.removed.map Removal.e ++ p₂.elems) := by
    rw [hrem, List.map_append, List.append_assoc]
    exact hperm₁.trans (hperm₂.append_left _)
  obtain ⟨hn₁, hmax₁, hev₁, hk₁, hs₁⟩ := hd₁.fields
  obtain ⟨hn₂, hmax₂, hev₂, hk₂, hs₂⟩ := hd₂.fields
  obtain ⟨-, hn₀, -, hmax₀, hev₀⟩ := hashLookup_table p m key
  have hkey : ∀ a ∈ p₂.elems, (m.elem a).key ≠ key := by
    intro a ha heq
    have hap : a ∈ p.elems := hbefore.mem_iff.mpr (List.mem_append_right _ ha)
    have hfound := (hashLookup_eq_some hr key a).mpr ⟨hap, heq⟩
    have haold : a ∈ r.removed.map Removal.e := by
      rw [hrem, hold, hfound]
      simp [removal]
    have hnd := hbefore.nodup_iff.mp hr.elems_nodup
    exact (List.disjoint_of_nodup_append hnd) haold ha
  have hkey₂ : ∀ a ∈ p₂.elems, (m₂.elem a).key ≠ key := by
    intro a ha
    rw [hk₂, hk₁]
    exact hkey a ha
  have hshape := linkElem_shape CACHELINE hr₂ hfresh.not_live hkey₂
  have hp : r.p = (linkElem p₂ { m₂ with blocks := (r.e, CACHELINE) :: m₂.blocks } r.e key
      (elemSize size)).1 := congrArg Prod.fst hlink
  have hm : r.m = (linkElem p₂ { m₂ with blocks := (r.e, CACHELINE) :: m₂.blocks } r.e key
      (elemSize size)).2 := congrArg Prod.snd hlink
  have hb : hashGetBucket p₂ key < p₂.nhash := Nat.mod_lt _ hr₂.nhash_pos
  have helem : ∀ a, a ≠ r.e → r.m.elem a = m₂.elem a := by
    intro a ha
    rw [hm]
    exact Mem.setElem_of_ne { m₂ with blocks := (r.e, CACHELINE) :: m₂.blocks } _ ha
  have hlive : ∀ a, a ≠ r.e → (r.m.Live a ↔ m₂.Live a) := by
    intro a ha
    rw [hm]
    simp [linkElem, Mem.Live, Mem.setElem, ha]
  have hsplit : ∀ a, a ∉ r.removed.map Removal.e → a ∉ old.map Removal.e ∧ a ∉ rs.map Removal.e := by
    intro a ha
    rw [hrem, List.map_append, List.mem_append, not_or] at ha
    exact ha
  refine ⟨p₂.elems, ?_⟩
  refine
    { shape := by rw [hp, hm]; exact hshape
      fits := by rw [hp]; exact hfit
      nhash_eq := by rw [hp]; exact hn₂.trans (hn₁.trans hn₀)
      maxSize_eq := by rw [hp]; exact hmax₂.trans (hmax₁.trans hmax₀)
      evictalgo_eq := by rw [hp]; exact hev₂.trans (hev₁.trans hev₀)
      before := hbefore
      after := by rw [hp]; exact Lists.cat_concat_perm hb p₂.table r.e
      rest_key := hkey
      key_eq := by rw [hm]; simp [linkElem]
      size_eq := by rw [hm]; simp [linkElem]
      pos := hfresh.1
      bound := hfresh.2.1
      live := by rw [hm]; simp [linkElem, Mem.Live, Mem.setElem]
      key_of_ne := fun a ha => by rw [helem a ha, hk₂, hk₁]
      elem_of_notMem := ?_
      live_of_notMem := ?_
      fresh_of_notMem := ?_ }
  · intro a ha hne
    obtain ⟨h₁, h₂⟩ := hsplit a ha
    rw [helem a hne, hd₂.elem_of_notMem h₂, hd₁.elem_of_notMem h₁]
  · intro a ha hne
    obtain ⟨h₁, h₂⟩ := hsplit a ha
    rw [hlive a hne, hd₂.live_of_notMem h₂, hd₁.live_of_notMem h₁]
  · intro ha
    obtain ⟨h₁, h₂⟩ := hsplit _ ha
    rw [← hd₁.live_of_notMem h₁, ← hd₂.live_of_notMem h₂]
    exact hfresh.not_live

/-- A live element of another partition is neither removed nor the new element. -/
theorem InsertPost.other {key esize : ℕ} {r : Inserted} {rest : List ℕ}
    (hpost : InsertPost p m key esize r rest) {a : ℕ} (hlive : m.Live a) (hnot : a ∉ p.elems) :
    a ∉ r.removed.map Removal.e ∧ a ≠ r.e := by
  have hsub : ∀ x ∈ r.removed.map Removal.e, x ∈ p.elems := fun x hx =>
    hpost.before.mem_iff.mpr (List.mem_append_left _ hx)
  refine ⟨fun hmem => hnot (hsub a hmem), ?_⟩
  rintro rfl
  exact hpost.fresh_of_notMem (fun hmem => hnot (hsub _ hmem)) hlive

/-- While the counter does not wrap, an insert keeps it exact and its subtractions do not wrap. -/
theorem hashInsert_rep {key : ℕ} {size : ℤ} {o : Oracle} {r : Inserted} (hr : Rep p m 0)
    (hsize : p.size + elemSize size < 2 ^ 64)
    (h : hashInsert p m key size release o = .ok r) :
    Rep r.p r.m 0 ∧ ∀ x ∈ r.removed, x.elemSize ≤ x.sizeBefore := by
  obtain ⟨old, p₁, m₁, rs, p₂, m₂, -, hd₁, hd₂, -, -, hrem, -⟩ := hashInsert_ok hr.toShape h
  obtain ⟨rest, hpost⟩ := hashInsert_post hr.toShape h
  have hr₀ := hashLookup_rep hr key
  have hr₁ := hd₁.rep hr₀
  have hle : p₁.size ≤ p.size := (hd₁.size_le hr₀).trans_eq (hashLookup_table p m key).2.2.1
  have hr₂ := hr₁.charge (n := elemSize size) (by omega)
  rw [Nat.zero_add] at hr₂
  refine ⟨hpost.shape.rep ?_, ?_⟩
  · -- the elements kept are among those before, and the new one pays the charge
    have hrest : ∀ a ∈ rest, (r.m.elem a).size = (m.elem a).size := by
      intro a ha
      have hkept := List.disjoint_of_nodup_append (hpost.before.nodup_iff.mp hr.elems_nodup)
      have hnew := (List.nodup_cons.mp (hpost.after.nodup_iff.mp hpost.shape.elems_nodup)).1
      rw [hpost.elem_of_notMem a (fun hmem => hkept hmem ha) (fun heq => hnew (heq ▸ ha))]
    have hafter := (hpost.after.map fun a => (r.m.elem a).size).sum_eq
    have hbefore := (hpost.before.map fun a => (m.elem a).size).sum_eq
    rw [List.map_cons, List.sum_cons, hpost.size_eq, List.map_congr_left hrest] at hafter
    rw [List.map_append, List.sum_append] at hbefore
    have hsz := hr.size_eq
    omega
  · intro x hx
    rw [hrem] at hx
    rcases List.mem_append.mp hx with hx | hx
    · exact hd₁.no_wrap hr₀ x hx
    · exact hd₂.no_wrap hr₂ x hx

end

/-! ### The rounded element size -/

theorem elemSize_eq {size : ℤ} (h0 : 0 ≤ size) (h : size < 2 ^ 31) :
    elemSize size = (sizeofElem + size.toNat + (CACHELINE - 1)) / CACHELINE * CACHELINE := by
  have hw : wordOfInt (sizeofElem + size) = sizeofElem + size.toNat := by
    rw [wordOfInt_eq (by unfold sizeofElem; omega) (by unfold sizeofElem; omega)]
    unfold sizeofElem
    omega
  unfold elemSize
  rw [hw, add64_eq (by unfold sizeofElem CACHELINE; omega),
    show (2 ^ 64 - CACHELINE : ℕ) = (2 ^ 58 - 1) * 2 ^ 6 from rfl, BitField.and_field,
    show (2 ^ 6 : ℕ) = CACHELINE from rfl]
  rw [Nat.mod_eq_of_lt (a := _ / CACHELINE) (by unfold sizeofElem CACHELINE; omega)]

theorem elemSize_bounds {size : ℤ} (h0 : 0 ≤ size) (h : size < 2 ^ 31) :
    sizeofElem + size.toNat ≤ elemSize size ∧ elemSize size < 2 ^ 32 := by
  rw [elemSize_eq h0 h]
  unfold sizeofElem CACHELINE
  omega

end SmpHashTable
