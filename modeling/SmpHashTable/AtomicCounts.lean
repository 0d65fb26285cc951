import SmpHashTable.Locking

/-!
# Atomic reference counting

In the locking design an insert takes no reference of its own: until `atomic_mark_ready` the mask bit
keeps the word of its element from being zero.  Evictions, overwrites, releases and `atomic_mark_ready`
race outside the lock; whichever brings the whole word to zero frees the element.
-/

namespace SmpHashTable

/-- How often `e` was made. -/
def insertions (log : List LockingEvent) (e : ℕ) : ℕ :=
  log.countP fun | .inserted _ e' => e' = e | _ => false

/-- How often `e` was freed. -/
def frees (log : List LockingEvent) (e : ℕ) : ℕ :=
  log.countP fun | .freed _ e' => e' = e | _ => false

namespace Locking

/-- The references to `e`: one of the table and one for each lookup that has not released it. -/
def refs (st : Locking) (log : List LockingEvent) (e : ℕ) : ℕ :=
  (if st.table.Has e then 1 else 0) + handles log e

/-- Some thread is about to free `e`. -/
def Freeing (st : Locking) (e : ℕ) : Prop := ∃ t ret, st.pc t = .free e ret

end Locking

/-! ### The account of one element -/

/-- The word of an element, its references, whether it is being filled, and whether it is live. -/
structure Account (live freeing : Prop) (word refs filling handles : ℕ) : Prop where
  word_eq : live → word = DATA_READY_MASK * filling + refs
  low : refs ≤ DATA_READY_MASK
  filling_le : filling ≤ 1
  early : 0 < filling → handles = 0 ∧ refs ≤ 1
  live_iff : live ↔ 0 < refs ∨ 0 < filling ∨ freeing
  idle : freeing → refs = 0 ∧ filling = 0

theorem readyMask_eq : DATA_READY_MASK = 2 ^ 63 := rfl

namespace Account

variable {live freeing : Prop} {word refs filling handles : ℕ}

/-- The word fits. -/
theorem word_lt (h : Account live freeing word refs filling handles) (hlive : live) : word < 2 ^ 64 := by
  have hword := h.word_eq hlive
  have hlow := h.low
  have hfill := h.filling_le
  have hearly := h.early
  rw [readyMask_eq] at hword hlow
  rcases Nat.eq_zero_or_pos filling with hzero | hpos
  · rw [hzero] at hword
    omega
  · obtain ⟨-, hle⟩ := hearly hpos
    have hone : filling = 1 := by omega
    rw [hone] at hword
    omega

/-- The mask is the top bit of the word. -/
theorem mask_eq (h : Account live freeing word refs filling handles) (hlive : live)
    (hlt : refs < DATA_READY_MASK) :
    clearReadyMask word = refs ∧ (word &&& DATA_READY_MASK ≠ 0 ↔ filling = 1) := by
  have hword := h.word_eq hlive
  have hfill := h.filling_le
  rw [clearReadyMask_eq, and_readyMask]
  rw [readyMask_eq] at hword hlt
  have hcases : filling = 0 ∨ filling = 1 := by omega
  rcases hcases with rfl | rfl
  · refine ⟨by omega, ?_⟩
    have hdiv : word / 2 ^ 63 = 0 := by omega
    rw [hdiv]
    exact ⟨fun hne => absurd rfl hne, nofun⟩
  · refine ⟨by omega, ?_⟩
    have hdiv : word / 2 ^ 63 = 1 := by omega
    rw [hdiv]
    exact ⟨fun _ => rfl, fun _ => by decide⟩

/-- A ready element has less than `2 ^ 63` references and is not being filled. -/
theorem ready (h : Account live freeing word refs filling handles) (hlive : live)
    (hready : word &&& DATA_READY_MASK = 0) : filling = 0 ∧ refs < DATA_READY_MASK := by
  have hword := h.word_eq hlive
  have hfill := h.filling_le
  have hlow := h.low
  have hearly := h.early
  rw [and_readyMask] at hready
  rw [readyMask_eq] at hword hlow ⊢
  have hcases : filling = 0 ∨ filling = 1 := by omega
  rcases hcases with rfl | rfl
  · refine ⟨rfl, ?_⟩
    by_contra hge
    have hdiv : word / 2 ^ 63 = 1 := by omega
    rw [hdiv] at hready
    cases hready
  · have hle := (hearly Nat.one_pos).2
    have hdiv : word / 2 ^ 63 = 1 := by omega
    rw [hdiv] at hready
    cases hready

/-- A lookup takes a reference. -/
theorem take (h : Account live freeing word refs filling handles) (hlive : live) (hfill : filling = 0)
    (hpos : 0 < refs) (hlt : refs < DATA_READY_MASK) :
    Account live freeing (add64 word 1) (refs + 1) filling (handles + 1) := by
  have hword := h.word_eq hlive
  subst hfill
  rw [readyMask_eq] at hword hlt
  refine ⟨fun _ => ?_, hlt, Nat.zero_le _, fun hp => absurd hp (Nat.lt_irrefl _), ?_, ?_⟩
  · rw [add64_eq (by omega)]
    omega
  · have hiff := h.live_iff
    exact ⟨fun _ => Or.inl (Nat.succ_pos _), fun _ => hlive⟩
  · intro hf
    have hzero := (h.idle hf).1
    omega

/-- A reference is given up: the element is freed if that was what kept the word from zero. -/
theorem drop (h : Account live freeing word refs filling handles) (hpos : 0 < refs) {handles' : ℕ}
    (hhandles : handles' ≤ handles) :
    Account live (sub64 word 1 = 0) (sub64 word 1) (refs - 1) filling handles' := by
  have hlive := h.live_iff.mpr (Or.inl hpos)
  have hword := h.word_eq hlive
  have hlt := h.word_lt hlive
  have hlow := h.low
  have hfill := h.filling_le
  rw [readyMask_eq] at hword hlow
  have hsub : sub64 word 1 = word - 1 := sub64_eq (by omega) hlt
  rw [hsub]
  refine ⟨fun _ => ?_, ?_, hfill, ?_, ?_, ?_⟩
  · rw [readyMask_eq]
    omega
  · rw [readyMask_eq]
    omega
  · intro hp
    obtain ⟨hzero, hle⟩ := h.early hp
    omega
  · exact ⟨fun _ => by omega, fun _ => hlive⟩
  · intro hzero
    omega

/-- The inserter marks its element ready: it is freed if nothing else refers to it. -/
theorem mark (h : Account live freeing word refs filling handles) (hpos : 0 < filling) :
    Account live (clearReadyMask word = 0) (clearReadyMask word) refs (filling - 1) handles := by
  have hlive := h.live_iff.mpr (Or.inr (Or.inl hpos))
  have hword := h.word_eq hlive
  have hle := (h.early hpos).2
  have hone : filling = 1 := by
    have := h.filling_le
    omega
  subst hone
  rw [readyMask_eq] at hword
  have hclear : clearReadyMask word = refs := by
    rw [clearReadyMask_eq]
    omega
  rw [hclear]
  refine ⟨fun _ => by omega, h.low, by omega, fun hp => by omega, ?_, ?_⟩
  · exact ⟨fun _ => by omega, fun _ => hlive⟩
  · intro hzero
    exact ⟨hzero, rfl⟩

end Account

/-- An insert makes an element. -/
theorem account_new : Account True False (DATA_READY_MASK ||| 1) 1 1 0 where
  word_eq _ := by decide
  low := by decide
  filling_le := le_rfl
  early _ := ⟨rfl, le_rfl⟩
  live_iff := ⟨fun _ => Or.inl Nat.one_pos, fun _ => trivial⟩
  idle h := h.elim

/-- An address without an element. -/
theorem account_free (word : ℕ) : Account False False word 0 0 0 where
  word_eq h := h.elim
  low := Nat.zero_le _
  filling_le := Nat.zero_le _
  early h := absurd h (Nat.lt_irrefl _)
  live_iff := by simp
  idle h := h.elim

/-! ### What an event does to the tallies -/

section

variable (log : List LockingEvent) (t e a : ℕ)

theorem tallies_took : handles (log ++ [.took t e]) a = (if e = a then handles log a + 1 else handles log a) ∧
    filling (log ++ [.took t e]) a = filling log a ∧
    insertions (log ++ [.took t e]) a = insertions log a ∧ frees (log ++ [.took t e]) a = frees log a := by
  simp [handles, filling, insertions, frees, List.foldl_append]

theorem tallies_gave : handles (log ++ [.gave t e]) a = (if e = a then handles log a - 1 else handles log a) ∧
    filling (log ++ [.gave t e]) a = filling log a ∧
    insertions (log ++ [.gave t e]) a = insertions log a ∧ frees (log ++ [.gave t e]) a = frees log a := by
  simp [handles, filling, insertions, frees, List.foldl_append]

theorem tallies_inserted : handles (log ++ [.inserted t e]) a = handles log a ∧
    filling (log ++ [.inserted t e]) a = (if e = a then filling log a + 1 else filling log a) ∧
    insertions (log ++ [.inserted t e]) a = insertions log a + (if e = a then 1 else 0) ∧
    frees (log ++ [.inserted t e]) a = frees log a := by
  simp [handles, filling, insertions, frees, List.foldl_append, List.countP_append, List.countP_cons]

theorem tallies_marked : handles (log ++ [.marked t e]) a = handles log a ∧
    filling (log ++ [.marked t e]) a = (if e = a then filling log a - 1 else filling log a) ∧
    insertions (log ++ [.marked t e]) a = insertions log a ∧ frees (log ++ [.marked t e]) a = frees log a := by
  simp [handles, filling, insertions, frees, List.foldl_append]

theorem tallies_freed : handles (log ++ [.freed t e]) a = handles log a ∧
    filling (log ++ [.freed t e]) a = filling log a ∧
    insertions (log ++ [.freed t e]) a = insertions log a ∧
    frees (log ++ [.freed t e]) a = frees log a + (if e = a then 1 else 0) := by
  simp [handles, filling, insertions, frees, List.foldl_append, List.countP_append, List.countP_cons]

theorem tallies_returned : handles (log ++ [.returned t e]) a = handles log a ∧
    filling (log ++ [.returned t e]) a = filling log a ∧
    insertions (log ++ [.returned t e]) a = insertions log a ∧
    frees (log ++ [.returned t e]) a = frees log a := by
  simp [handles, filling, insertions, frees, List.foldl_append]

end

/-! ### The accounts of all elements -/

namespace Locking

/-- All accounts are right, nobody frees what another thread frees, and a reference that a lookup is
about to take is still there to be taken. -/
structure Counts (st : Locking) (log : List LockingEvent) : Prop where
  account : ∀ e, Account (st.table.mem.Live e) (st.Freeing e) (st.table.mem.elem e).refCount
    (st.refs log e) (filling log e) (handles log e)
  free_inj : ∀ t t' e ret ret', st.pc t = .free e ret → st.pc t' = .free e ret' → t = t'
  ready : ∀ t s e, st.pc t = .take s e → filling log e = 0 ∧ st.refs log e < DATA_READY_MASK
  frees_eq : ∀ e, frees log e + (if st.table.mem.Live e then 1 else 0) = insertions log e

variable {st st' : Locking} {log evs : List LockingEvent} {t s e : ℕ}

theorem counts_init (maxSize nservers : ℕ) (evictalgo : Evictalgo) :
    Counts (.init (createHashTable maxSize nservers evictalgo)) [] := by
  have hhas : ∀ e, ¬ (Locking.init (createHashTable maxSize nservers evictalgo)).table.Has e := by
    rintro e ⟨s, -, he⟩
    replace he : e ∈ ((createHashTable maxSize nservers evictalgo).part s).elems := he
    have hnil : ((createHashTable maxSize nservers evictalgo).part s).elems = [] := Lists.cat_const_nil _
    rw [hnil] at he
    cases he
  refine ⟨?_, nofun, nofun, fun _ => rfl⟩
  intro e
  have hrefs : (Locking.init (createHashTable maxSize nservers evictalgo)).refs [] e = 0 := by
    rw [refs, if_neg (hhas e)]
    rfl
  have hlive : ((Locking.init (createHashTable maxSize nservers evictalgo)).table.mem.Live e) = False :=
    eq_false (fun h => nomatch h)
  have hfreeing : (Locking.init (createHashTable maxSize nservers evictalgo)).Freeing e = False :=
    eq_false (fun ⟨_, _, h⟩ => nomatch h)
  rw [hrefs, hlive, hfreeing]
  exact account_free _

variable (st t) in
/-- Who frees after a step of thread `t`. -/
theorem freeing_iff (pc : LockingPc) (hpc : st'.pc = Function.update st.pc t pc) (e : ℕ) :
    st'.Freeing e ↔ (∃ ret, pc = .free e ret) ∨ ∃ t' ≠ t, ∃ ret, st.pc t' = .free e ret := by
  unfold Freeing
  rw [hpc]
  constructor
  · rintro ⟨t', ret, h⟩
    by_cases hne : t' = t
    · subst hne
      rw [Function.update_self] at h
      exact Or.inl ⟨ret, h⟩
    · rw [Function.update_of_ne hne] at h
      exact Or.inr ⟨t', hne, ret, h⟩
  · rintro (⟨ret, h⟩ | ⟨t', hne, ret, h⟩)
    · exact ⟨t, ret, by rw [Function.update_self]; exact h⟩
    · exact ⟨t', ret, by rw [Function.update_of_ne hne]; exact h⟩

/-- **A step of thread `t` that concerns the element `e` only.** -/
theorem Counts.change (h : Counts st log) (e : ℕ) {pc : LockingPc} (hpc : st'.pc = Function.update st.pc t pc)
    (hold : ∀ a ret, st.pc t = .free a ret → a = e) (hnew : ∀ a ret, pc = .free a ret → a = e)
    (hlive : ∀ a ≠ e, st'.table.mem.Live a ↔ st.table.mem.Live a)
    (hword : ∀ a ≠ e, st'.table.mem.elem a = st.table.mem.elem a)
    (hhas : ∀ a ≠ e, st'.table.Has a ↔ st.table.Has a)
    (hhandles : ∀ a ≠ e, handles (log ++ evs) a = handles log a)
    (hfilling : ∀ a ≠ e, filling (log ++ evs) a = filling log a)
    (haccount : Account (st'.table.mem.Live e) (st'.Freeing e) (st'.table.mem.elem e).refCount
      (st'.refs (log ++ evs) e) (filling (log ++ evs) e) (handles (log ++ evs) e))
    (halone : ∀ ret, pc = .free e ret → ∀ t' ≠ t, ∀ ret', st.pc t' ≠ .free e ret')
    (hready : ∀ s a, pc = .take s a →
      filling (log ++ evs) a = 0 ∧ st'.refs (log ++ evs) a < DATA_READY_MASK)
    (hothers : ∀ t' ≠ t, ∀ s, st.pc t' = .take s e →
      filling (log ++ evs) e = 0 ∧ st'.refs (log ++ evs) e < DATA_READY_MASK)
    (hfrees : ∀ a, frees (log ++ evs) a + (if st'.table.mem.Live a then 1 else 0)
      = insertions (log ++ evs) a) : Counts st' (log ++ evs) := by
  have hrefs : ∀ a ≠ e, st'.refs (log ++ evs) a = st.refs log a := by
    intro a ha
    rw [refs, refs, hhandles a ha]
    simp only [hhas a ha]
  have hthis : st'.pc t = pc := by rw [hpc, Function.update_self]
  have hrest : ∀ t' ≠ t, st'.pc t' = st.pc t' := fun t' hne => by rw [hpc, Function.update_of_ne hne]
  refine ⟨?_, ?_, ?_, hfrees⟩
  · intro a
    by_cases ha : a = e
    · subst ha
      exact haccount
    · have hfreeing : st'.Freeing a ↔ st.Freeing a := by
        rw [freeing_iff st t _ hpc]
        constructor
        · rintro (⟨ret, hret⟩ | ⟨t', -, ret, hret⟩)
          · exact absurd (hnew a ret hret) ha
          · exact ⟨t', ret, hret⟩
        · rintro ⟨t', ret, hret⟩
          by_cases hne : t' = t
          · subst hne
            exact absurd (hold a ret hret) ha
          · exact Or.inr ⟨t', hne, ret, hret⟩
      rw [propext (hlive a ha), propext hfreeing, hword a ha, hrefs a ha, hfilling a ha, hhandles a ha]
      exact h.account a
  · intro t₁ t₂ a ret₁ ret₂ h₁ h₂
    by_cases hne₁ : t₁ = t <;> by_cases hne₂ : t₂ = t
    · rw [hne₁, hne₂]
    · rw [hne₁, hthis] at h₁
      rw [hrest t₂ hne₂] at h₂
      obtain rfl := hnew a ret₁ h₁
      exact absurd h₂ (halone ret₁ h₁ t₂ hne₂ ret₂)
    · rw [hrest t₁ hne₁] at h₁
      rw [hne₂, hthis] at h₂
      obtain rfl := hnew a ret₂ h₂
      exact absurd h₁ (halone ret₂ h₂ t₁ hne₁ ret₁)
    · rw [hrest t₁ hne₁] at h₁
      rw [hrest t₂ hne₂] at h₂
      exact h.free_inj t₁ t₂ a ret₁ ret₂ h₁ h₂
  · intro t' s a ha
    by_cases hne : t' = t
    · subst hne
      rw [hthis] at ha
      exact hready s a ha
    · rw [hrest t' hne] at ha
      by_cases hae : a = e
      · subst hae
        exact hothers t' hne s ha
      · rw [hfilling a hae, hrefs a hae]
        exact h.ready t' s a ha

/-- A step that changes no account. -/
theorem Counts.skip (h : Counts st log) {pc : LockingPc} (hpc : st'.pc = Function.update st.pc t pc)
    (hold : ∀ a ret, st.pc t ≠ .free a ret) (hnew : ∀ a ret, pc ≠ .free a ret)
    (hmem : st'.table.mem = st.table.mem) (hhas : ∀ a, st'.table.Has a ↔ st.table.Has a)
    (htallies : ∀ a, handles (log ++ evs) a = handles log a ∧ filling (log ++ evs) a = filling log a ∧
      insertions (log ++ evs) a = insertions log a ∧ frees (log ++ evs) a = frees log a)
    (hready : ∀ s a, pc = .take s a → filling log a = 0 ∧ st.refs log a < DATA_READY_MASK) :
    Counts st' (log ++ evs) := by
  have hrefs : ∀ a, st'.refs (log ++ evs) a = st.refs log a := by
    intro a
    rw [refs, refs, (htallies a).1]
    simp only [hhas a]
  have hfreeing : ∀ a, st'.Freeing a ↔ st.Freeing a := by
    intro a
    rw [freeing_iff st t _ hpc]
    constructor
    · rintro (⟨ret, hret⟩ | ⟨t', -, ret, hret⟩)
      · exact absurd hret (hnew a ret)
      · exact ⟨t', ret, hret⟩
    · rintro ⟨t', ret, hret⟩
      refine Or.inr ⟨t', ?_, ret, hret⟩
      rintro rfl
      exact hold a ret hret
  have hpcs : ∀ t' a ret, st'.pc t' = .free a ret → st.pc t' = .free a ret := by
    intro t' a ret hret
    rw [hpc] at hret
    by_cases hne : t' = t
    · subst hne
      rw [Function.update_self] at hret
      exact absurd hret (hnew a ret)
    · rwa [Function.update_of_ne hne] at hret
  refine ⟨?_, ?_, ?_, ?_⟩
  · intro a
    rw [hmem, propext (hfreeing a), hrefs, (htallies a).1, (htallies a).2.1]
    exact h.account a
  · intro t₁ t₂ a ret₁ ret₂ h₁ h₂
    exact h.free_inj t₁ t₂ a ret₁ ret₂ (hpcs t₁ a ret₁ h₁) (hpcs t₂ a ret₂ h₂)
  · intro t' s a ha
    rw [(htallies a).2.1, hrefs]
    rw [hpc] at ha
    by_cases hne : t' = t
    · subst hne
      rw [Function.update_self] at ha
      exact hready s a ha
    · rw [Function.update_of_ne hne] at ha
      exact h.ready t' s a ha
  · intro a
    rw [hmem, (htallies a).2.2.1, (htallies a).2.2.2]
    exact h.frees_eq a

theorem update_ok {f : ℕ → ℕ} {ret : ReleaseRet} (hstep : st.update t e f ret = .ok st') :
    st.table.mem.Live e ∧ st' = (st.setRefCount e (f (st.table.mem.elem e).refCount)).setPc t
      (if f (st.table.mem.elem e).refCount = 0 then .free e ret else ret.next) := by
  unfold update at hstep
  split at hstep
  · next hlive =>
    cases hstep
    exact ⟨hlive, rfl⟩
  · cases hstep

/-- What follows a release function is neither a `free` nor a reference to take. -/
theorem next_ne (ret : ReleaseRet) : (∀ a r, ret.next ≠ .free a r) ∧ ∀ s a, ret.next ≠ .take s a := by
  cases ret <;> exact ⟨nofun, nofun⟩

/-- **The word of `e` becomes `w`**, by a thread that frees `e` if and only if that is zero. -/
theorem Counts.word (h : Counts st log) (st₁ : Locking) {w : ℕ} {ret : ReleaseRet}
    (hpcs : st₁.pc = st.pc) (hmem : st₁.table.mem = st.table.mem)
    (hold : ∀ a r, st.pc t ≠ .free a r) (hbusy : 0 < st.refs log e ∨ 0 < filling log e)
    (hhas : ∀ a ≠ e, st₁.table.Has a ↔ st.table.Has a)
    (hhandles : ∀ a ≠ e, handles (log ++ evs) a = handles log a)
    (hfilling : ∀ a ≠ e, filling (log ++ evs) a = filling log a)
    (hfill_le : filling (log ++ evs) e ≤ filling log e) (hrefs_le : st₁.refs (log ++ evs) e ≤ st.refs log e)
    (haccount : Account (st.table.mem.Live e) (w = 0) w (st₁.refs (log ++ evs) e)
      (filling (log ++ evs) e) (handles (log ++ evs) e))
    (hins : ∀ a, insertions (log ++ evs) a = insertions log a)
    (hfrees : ∀ a, frees (log ++ evs) a = frees log a) :
    Counts ((st₁.setRefCount e w).setPc t (if w = 0 then .free e ret else ret.next)) (log ++ evs) := by
  have hpc : ((st₁.setRefCount e w).setPc t (if w = 0 then .free e ret else ret.next)).pc
      = Function.update st.pc t (if w = 0 then .free e ret else ret.next) := by
    rw [← hpcs]
    rfl
  have hquiet : ¬ st.Freeing e := by
    intro hfree
    obtain ⟨hzero, hzero'⟩ := (h.account e).idle hfree
    omega
  have hlives : ∀ a, ((st₁.setRefCount e w).setPc t (if w = 0 then .free e ret else ret.next)).table.mem.Live a
      ↔ st.table.mem.Live a := by
    intro a
    show (st₁.table.mem.setElem e _).Live a ↔ _
    rw [Mem.setElem_live, hmem]
  refine h.change e hpc (fun a r hr => absurd hr (hold a r)) ?_ (fun a _ => hlives a) ?_ hhas hhandles hfilling
    ?_ ?_ ?_ ?_ ?_
  · intro a r hr
    split at hr
    · cases hr
      rfl
    · exact absurd hr ((next_ne ret).1 a r)
  · intro a ha
    show (st₁.table.mem.setElem e _).elem a = _
    rw [Mem.setElem_of_ne _ _ ha, hmem]
  · have hfreeing : ((st₁.setRefCount e w).setPc t (if w = 0 then .free e ret else ret.next)).Freeing e
        ↔ w = 0 := by
      rw [freeing_iff st t _ hpc]
      constructor
      · rintro (⟨r, hr⟩ | ⟨t', -, r, hr⟩)
        · split at hr
          · assumption
          · exact absurd hr ((next_ne ret).1 e r)
        · exact absurd ⟨t', r, hr⟩ hquiet
      · intro hw
        exact Or.inl ⟨ret, if_pos hw⟩
    have hcount : (((st₁.setRefCount e w).setPc t
        (if w = 0 then .free e ret else ret.next)).table.mem.elem e).refCount = w := by
      show ((st₁.table.mem.setElem e _).elem e).refCount = w
      rw [Mem.setElem_self]
    rw [propext (hlives e), propext hfreeing, hcount]
    exact haccount
  · intro r _ t' _ r' hr'
    exact hquiet ⟨t', r', hr'⟩
  · intro s a ha
    split at ha
    · cases ha
    · exact absurd ha ((next_ne ret).2 s a)
  · intro t' _ s hs
    obtain ⟨hzero, hlt⟩ := h.ready t' s e hs
    exact ⟨by omega, lt_of_le_of_lt hrefs_le hlt⟩
  · intro a
    rw [hfrees, hins]
    simp only [hlives a]
    exact h.frees_eq a

end Locking

end SmpHashTable
