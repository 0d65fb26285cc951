import SmpHashTable.Protocol

/-!
# How much storage an element gets

`hash_insert` asks for the block of an element with `memalign(sizeof(struct elem) + size,
CACHELINE)`.  The first argument of `memalign` is the boundary and the second the length, so the
block has `CACHELINE` bytes whatever the size; everywhere else in the code the boundary comes first.
The header alone fills that block.  This module follows the blocks through runs of server operations
and says exactly when header and value of every live element lie inside its block.
-/

namespace SmpHashTable

/-- An operation of server `s`. -/
structure StorageCall where
  s : ℕ
  op : Op
  o : Oracle

/-- The table, and for each address the size its last element was inserted with. -/
structure Store where
  table : Table
  asked : ℕ → ℕ

def StorageCall.run (st : Store) (c : StorageCall) : Except Stop Store := do
  let (t, resp, _) ← serverOp st.table c.s c.o c.op
  match c.op, resp with
  | .insert _ size, some v => return ⟨t, Function.update st.asked (v - sizeofElem) size.toNat⟩
  | _, _ => return ⟨t, st.asked⟩

def runStorage (st : Store) : List StorageCall → Except Stop Store
  | [] => .ok st
  | c :: cs => do
      let st ← c.run st
      runStorage st cs

/-- A client writes the `n` bytes of the value of the element at `a`. -/
def fill (content : ℕ → ℕ) (a n : ℕ) (value : ℕ → ℕ) : ℕ → ℕ := fun x =>
  if valuePtr a ≤ x ∧ x < valuePtr a + n then value (x - valuePtr a) else content x

/-- Every live element has its header and value inside its block, the areas of two live elements do
not meet, and filling one value changes no byte of another element. -/
structure Store.StorageOk (st : Store) : Prop where
  contained : ∀ b ∈ st.table.mem.blocks, sizeofElem + st.asked b.1 ≤ b.2
  disjoint : ∀ a a', st.table.mem.Live a → st.table.mem.Live a' → a ≠ a' →
    valuePtr a + st.asked a ≤ a' ∨ valuePtr a' + st.asked a' ≤ a
  fill_safe : ∀ a a', st.table.mem.Live a → st.table.mem.Live a' → a ≠ a' →
    ∀ content value x, a' ≤ x → x < valuePtr a' + st.asked a' →
      fill content a (st.asked a) value x = content x

/-- The sizes of the inserts of a run. -/
def StorageCall.size? (c : StorageCall) : Option ℤ :=
  match c.op with
  | .insert _ size => some size
  | _ => none

/-! ### What the operations do to the blocks -/

/-- Some blocks are given back, nothing else happens to the blocks. -/
theorem evictLoop_blocks {release : ReleaseValueF} {boundary esize : ℕ} (fuel : ℕ)
    {allocs : List (Option ℕ)} {tscs : List ℕ} {p p' : Partition} {m m' : Mem}
    {removed removed' : List Removal} {e : ℕ}
    (h : evictLoop release boundary esize fuel allocs tscs p m removed
      = .ok (e, p', m', removed')) :
    ∃ m₁ : Mem, (∀ b ∈ m₁.blocks, b ∈ m.blocks) ∧ m₁.Fresh e CACHELINE ∧
      m'.blocks = (e, CACHELINE) :: m₁.blocks := by
  induction fuel generalizing allocs tscs p m removed with
  | zero => simp [evictLoop] at h
  | succ fuel ih =>
      have round : ∀ allocs, (evictOne release esize tscs p m >>= fun x =>
            evictLoop release boundary esize fuel allocs x.2.1 x.2.2.1 x.2.2.2 (removed ++ [x.1]))
            = .ok (e, p', m', removed') →
          ∃ m₁ : Mem, (∀ b ∈ m₁.blocks, b ∈ m.blocks) ∧ m₁.Fresh e CACHELINE ∧
            m'.blocks = (e, CACHELINE) :: m₁.blocks := by
        intro allocs hx
        obtain ⟨⟨r, rest, p₁, m₁⟩, hone, hx⟩ := Outcome.bind_ok.mp hx
        unfold evictOne at hone
        split at hone
        · obtain ⟨⟨l, rest'⟩, -, hone⟩ := Outcome.bind_ok.mp hone
          obtain ⟨m₂, hrel, hone⟩ := Outcome.bind_ok.mp hone
          simp only [Outcome.pure_ok, Except.ok.injEq, Prod.mk.injEq] at hone
          obtain ⟨-, -, -, rfl⟩ := hone
          obtain ⟨m₃, hsub, hrest⟩ := ih hx
          exact ⟨m₃, fun b hb => (release.frame hrel).blocks_sub b (hsub b hb), hrest⟩
        · cases hone
      rw [evictLoop] at h
      split at h
      · obtain ⟨⟨got, m₁⟩, halloc, hgot⟩ := Outcome.bind_ok.mp h
        cases got with
        | some a =>
            simp only [Outcome.pure_ok, Except.ok.injEq, Prod.mk.injEq] at hgot
            obtain ⟨rfl, -, rfl, -⟩ := hgot
            obtain ⟨hfresh, rfl⟩ := memalign_some halloc
            exact ⟨m, fun b hb => hb, hfresh, rfl⟩
        | none =>
            rw [memalign_none halloc] at hgot
            exact round _ hgot
      · exact round _ h

theorem hashInsert_blocks {p : Partition} {m : Mem} {key : ℕ} {size : ℤ} {release : ReleaseValueF}
    {o : Oracle} {r : Inserted} (h : hashInsert p m key size release o = .ok r) :
    ∃ m₁ : Mem, (∀ b ∈ m₁.blocks, b ∈ m.blocks) ∧ m₁.Fresh r.e CACHELINE ∧
      r.m.blocks = (r.e, CACHELINE) :: m₁.blocks := by
  rw [hashInsert_eq] at h
  obtain ⟨⟨p₁, m₁, old⟩, hold, h⟩ := Outcome.bind_ok.mp h
  obtain ⟨⟨e, p₂, m₂, removed⟩, hloop, h⟩ := Outcome.bind_ok.mp h
  simp only [Except.ok.injEq] at h
  subst h
  obtain ⟨m₃, hsub, hfresh, hblocks⟩ := evictLoop_blocks _ hloop
  refine ⟨m₃, ?_, hfresh, hblocks⟩
  intro b hb
  have hb₁ := hsub b hb
  cases hfound : (hashLookup p m key).1 with
  | none =>
      rw [hfound] at hold
      simp only [dropOld, Except.ok.injEq, Prod.mk.injEq] at hold
      exact hold.2.1 ▸ hb₁
  | some x =>
      rw [hfound] at hold
      obtain ⟨m', hrel, hold⟩ := Outcome.bind_ok.mp hold
      simp only [Outcome.pure_ok, Except.ok.injEq, Prod.mk.injEq] at hold
      exact (release.frame hrel).blocks_sub b (hold.2.1 ▸ hb₁)

/-- The blocks after an operation: an insert takes one fresh block of `CACHELINE` bytes, and
otherwise blocks are only given back. -/
theorem StorageCall.run_blocks {st st' : Store} {c : StorageCall} (h : c.run st = .ok st') :
    (c.size? = none ∧ st'.asked = st.asked ∧
      ∀ b ∈ st'.table.mem.blocks, b ∈ st.table.mem.blocks) ∨
    ∃ size e m₁, c.size? = some size ∧ st'.asked = Function.update st.asked e size.toNat ∧
      (∀ b ∈ Mem.blocks m₁, b ∈ st.table.mem.blocks) ∧ m₁.Fresh e CACHELINE ∧
      st'.table.mem.blocks = (e, CACHELINE) :: m₁.blocks := by
  obtain ⟨s, op, o⟩ := c
  obtain ⟨⟨t, resp, removed⟩, hop, h⟩ := Outcome.bind_ok.mp h
  cases op with
  | lookup key =>
      simp only [Outcome.pure_ok, Except.ok.injEq] at h
      subst h
      refine Or.inl ⟨rfl, rfl, ?_⟩
      simp only [serverOp] at hop
      split at hop
      · split at hop <;> simp only [Except.ok.injEq, Prod.mk.injEq] at hop <;>
          obtain ⟨rfl, -⟩ := hop <;> exact fun b hb => hb
      · simp only [Except.ok.injEq, Prod.mk.injEq] at hop
        obtain ⟨rfl, -⟩ := hop
        exact fun b hb => hb
  | insert key size =>
      obtain ⟨r, hins, hop⟩ := Outcome.bind_ok.mp hop
      simp only [Outcome.pure_ok, Except.ok.injEq, Prod.mk.injEq] at hop
      obtain ⟨rfl, rfl, -⟩ := hop
      simp only [Outcome.pure_ok, Except.ok.injEq] at h
      subst h
      obtain ⟨m₁, hsub, hfresh, hblocks⟩ := hashInsert_blocks hins
      refine Or.inr ⟨size, r.e, m₁, rfl, ?_, hsub, hfresh, hblocks⟩
      simp [valuePtr]
  | release e =>
      obtain ⟨m, hrel, hop⟩ := Outcome.bind_ok.mp hop
      simp only [Outcome.pure_ok, Except.ok.injEq, Prod.mk.injEq] at hop
      obtain ⟨rfl, rfl, -⟩ := hop
      simp only [Outcome.pure_ok, Except.ok.injEq] at h
      subst h
      exact Or.inl ⟨rfl, rfl, (mpRelease.frame hrel).blocks_sub⟩

/-- Live blocks have `CACHELINE` bytes and do not meet. -/
structure BlocksOk (bs : List (ℕ × ℕ)) : Prop where
  length : ∀ b ∈ bs, b.2 = CACHELINE
  disjoint : ∀ b ∈ bs, ∀ b' ∈ bs, b.1 ≠ b'.1 → b.1 + b.2 ≤ b'.1 ∨ b'.1 + b'.2 ≤ b.1

theorem BlocksOk.mono {bs bs' : List (ℕ × ℕ)} (h : BlocksOk bs) (hsub : ∀ b ∈ bs', b ∈ bs) :
    BlocksOk bs' :=
  ⟨fun b hb => h.length b (hsub b hb),
    fun b hb b' hb' => h.disjoint b (hsub b hb) b' (hsub b' hb')⟩

theorem BlocksOk.cons {m : Mem} (h : BlocksOk m.blocks) {e : ℕ} (hf : m.Fresh e CACHELINE) :
    BlocksOk ((e, CACHELINE) :: m.blocks) := by
  refine ⟨?_, ?_⟩
  · intro b hb
    rcases List.mem_cons.mp hb with rfl | hb
    · rfl
    · exact h.length b hb
  · intro b hb b' hb' hne
    rcases List.mem_cons.mp hb with rfl | hb <;> rcases List.mem_cons.mp hb' with rfl | hb'
    · exact absurd rfl hne
    · exact (hf.2.2 b' hb').2
    · exact (hf.2.2 b hb).2.symm
    · exact h.disjoint b hb b' hb' hne

theorem StorageCall.run_blocksOk {st st' : Store} {c : StorageCall} (h : c.run st = .ok st')
    (hb : BlocksOk st.table.mem.blocks) : BlocksOk st'.table.mem.blocks := by
  rcases c.run_blocks h with ⟨-, -, hsub⟩ | ⟨size, e, m₁, -, -, hsub, hfresh, hblocks⟩
  · exact hb.mono hsub
  · rw [hblocks]
    exact (hb.mono hsub).cons hfresh

/-! ### When the storage suffices -/

/-- With blocks of header size, all areas are inside their blocks when no value has bytes. -/
theorem storageOk_of_asked_zero {st : Store} (hb : BlocksOk st.table.mem.blocks)
    (h0 : ∀ b ∈ st.table.mem.blocks, st.asked b.1 = 0) : st.StorageOk := by
  have hzero : ∀ a, st.table.mem.Live a → st.asked a = 0 := by
    intro a ha
    obtain ⟨b, hmem, rfl⟩ := List.mem_map.mp ha
    exact h0 b hmem
  refine ⟨?_, ?_, ?_⟩
  · intro b hmem
    rw [h0 b hmem, hb.length b hmem]
    exact le_rfl
  · intro a a' ha ha' hne
    rw [hzero a ha, hzero a' ha']
    obtain ⟨b, hmem, rfl⟩ := List.mem_map.mp ha
    obtain ⟨b', hmem', rfl⟩ := List.mem_map.mp ha'
    have hd := hb.disjoint b hmem b' hmem' hne
    rw [hb.length b hmem, hb.length b' hmem'] at hd
    exact hd
  · intro a a' ha _ _ content value x _ _
    rw [hzero a ha, fill, if_neg (by omega)]

/-- The blocks of a run, and the sizes behind them. -/
theorem runStorage_ok {st st' : Store} {calls : List StorageCall} (hb : BlocksOk st.table.mem.blocks)
    (h0 : ∀ b ∈ st.table.mem.blocks, st.asked b.1 = 0)
    (hcalls : ∀ c ∈ calls, ∀ size ∈ c.size?, size = 0) (h : runStorage st calls = .ok st') :
    st'.StorageOk := by
  induction calls generalizing st with
  | nil =>
      simp only [runStorage, Except.ok.injEq] at h
      exact h ▸ storageOk_of_asked_zero hb h0
  | cons c cs ih =>
      obtain ⟨st₁, hone, h⟩ := Outcome.bind_ok.mp h
      refine ih (c.run_blocksOk hone hb) ?_ (fun c' hc' => hcalls c' (List.mem_cons_of_mem c hc')) h
      rcases c.run_blocks hone with ⟨-, hasked, hsub⟩ | ⟨size, e, m₁, hsize, hasked, hsub, hf, hblocks⟩
      · intro b hmem
        rw [hasked]
        exact h0 b (hsub b hmem)
      · intro b hmem
        have hz : size = 0 := hcalls c List.mem_cons_self size hsize
        rw [hasked, hz, Function.update_apply]
        rw [hblocks] at hmem
        split
        · rfl
        · next hne =>
          rcases List.mem_cons.mp hmem with rfl | hmem
          · exact absurd rfl hne
          · exact h0 b (hsub b hmem)

/-- An insert of a value with bytes leaves an element whose block does not contain it. -/
theorem StorageCall.run_not_ok {st st' : Store} {c : StorageCall} (h : c.run st = .ok st') {size : ℤ}
    (hsize : c.size? = some size) (hpos : 0 < size) : ¬ st'.StorageOk := by
  intro hok
  rcases c.run_blocks h with ⟨hnone, -, -⟩ | ⟨size', e, m₁, hsize', hasked, -, -, hblocks⟩
  · rw [hnone] at hsize
    cases hsize
  · rw [hsize] at hsize'
    cases hsize'
    have hc := hok.contained (e, CACHELINE) (by rw [hblocks]; exact List.mem_cons_self)
    rw [hasked, Function.update_self] at hc
    unfold sizeofElem CACHELINE at hc
    omega

theorem runStorage_append {st : Store} (cs cs' : List StorageCall) :
    runStorage st (cs ++ cs') = (runStorage st cs >>= fun st' => runStorage st' cs') := by
  induction cs generalizing st with
  | nil => rfl
  | cons c cs ih =>
      rw [List.cons_append, runStorage, runStorage]
      cases c.run st with
      | error e => rfl
      | ok st₁ => exact ih

/-- Every prefix of a run that returns, returns. -/
theorem runStorage_init {st st' : Store} {cs cs' : List StorageCall}
    (h : runStorage st (cs ++ cs') = .ok st') : ∃ st₁, runStorage st cs = .ok st₁ := by
  rw [runStorage_append] at h
  obtain ⟨st₁, h₁, -⟩ := Outcome.bind_ok.mp h
  exact ⟨st₁, h₁⟩

/-- **Exactly the runs without value bytes have enough storage.**  Over any sequence of inserts with
sizes `≥ 0`, lookups and releases on a new table, every state on the way keeps headers and values
inside their blocks if and only if every insert has size zero. -/
theorem runStorage_ok_iff_sizes_zero {maxSize nservers : ℕ} {evictalgo : Evictalgo}
    {calls : List StorageCall} (hsizes : ∀ c ∈ calls, ∀ size ∈ c.size?, 0 ≤ size) {st : Store}
    (hrun : runStorage ⟨createHashTable maxSize nservers evictalgo, fun _ => 0⟩ calls = .ok st) :
    (∀ cs cs' st', calls = cs ++ cs' →
        runStorage ⟨createHashTable maxSize nservers evictalgo, fun _ => 0⟩ cs = .ok st' →
        st'.StorageOk) ↔
      ∀ c ∈ calls, ∀ size ∈ c.size?, size = 0 := by
  have hinit : BlocksOk (createHashTable maxSize nservers evictalgo).mem.blocks :=
    ⟨fun b hb => (List.not_mem_nil hb).elim, fun b hb => (List.not_mem_nil hb).elim⟩
  constructor
  · intro hall c hc size hsize
    by_contra hne
    have hpos : 0 < size := lt_of_le_of_ne (hsizes c hc size hsize) (Ne.symm hne)
    obtain ⟨cs, cs', rfl⟩ := List.append_of_mem hc
    rw [show cs ++ c :: cs' = (cs ++ [c]) ++ cs' from by simp] at hrun
    obtain ⟨st₁, h₁⟩ := runStorage_init hrun
    have hok := hall (cs ++ [c]) cs' st₁ (by simp) h₁
    rw [runStorage_append] at h₁
    obtain ⟨st₂, -, h₂⟩ := Outcome.bind_ok.mp h₁
    obtain ⟨st₃, h₃, hnil⟩ := Outcome.bind_ok.mp h₂
    simp only [runStorage, Except.ok.injEq] at hnil
    subst hnil
    exact StorageCall.run_not_ok h₃ hsize hpos hok
  · intro hzero cs cs' st' hsplit hcs
    refine runStorage_ok hinit (fun b hb => (List.not_mem_nil hb).elim) ?_ hcs
    intro c hc
    exact hzero c (hsplit ▸ List.mem_append_left _ hc)

/-- A run with empty values only. -/
theorem runStorage_ok_empty_values : ∃ st,
    runStorage ⟨createHashTable 1024 1 .lru, fun _ => 0⟩
      [⟨0, .insert 1 0, ⟨[some 128], []⟩⟩, ⟨0, .insert 2 0, ⟨[some 192], []⟩⟩] = .ok st ∧
    ∀ cs cs' st', [(⟨0, .insert 1 0, ⟨[some 128], []⟩⟩ : StorageCall),
        ⟨0, .insert 2 0, ⟨[some 192], []⟩⟩] = cs ++ cs' →
      runStorage ⟨createHashTable 1024 1 .lru, fun _ => 0⟩ cs = .ok st' → st'.StorageOk := by
  have hrun : runStorage ⟨createHashTable 1024 1 .lru, fun _ => 0⟩
      [⟨0, .insert 1 0, ⟨[some 128], []⟩⟩, ⟨0, .insert 2 0, ⟨[some 192], []⟩⟩] = .ok _ := rfl
  have hz : ∀ c ∈ [(⟨0, .insert 1 0, ⟨[some 128], []⟩⟩ : StorageCall),
      ⟨0, .insert 2 0, ⟨[some 192], []⟩⟩], ∀ size ∈ c.size?, size = 0 := by
    simp [StorageCall.size?]
  exact ⟨_, hrun, (runStorage_ok_iff_sizes_zero
    (fun c hc size hs => (hz c hc size hs).ge) hrun).mpr hz⟩

/-- Two inserts, the first of 64 value bytes at address 128, the second at 192: filling the first
value overwrites the header of the second element. -/
theorem storage_overlap : ∃ st,
    runStorage ⟨createHashTable 1024 1 .lru, fun _ => 0⟩
      [⟨0, .insert 1 64, ⟨[some 128], []⟩⟩, ⟨0, .insert 2 8, ⟨[some 192], []⟩⟩] = .ok st ∧
    ¬ st.StorageOk ∧ st.table.mem.Live 128 ∧ st.table.mem.Live 192 ∧ st.asked 128 = 64 ∧
      fill (fun _ => 0) 128 64 (fun _ => 1) 192 ≠ 0 := by
  have hrun : runStorage ⟨createHashTable 1024 1 .lru, fun _ => 0⟩
      [⟨0, .insert 1 64, ⟨[some 128], []⟩⟩, ⟨0, .insert 2 8, ⟨[some 192], []⟩⟩] = .ok _ := rfl
  refine ⟨_, hrun, ?_, by decide, by decide, by decide, by decide⟩
  intro hok
  have := hok.fill_safe 128 192 (by decide) (by decide) (by decide) (fun _ => 0) (fun _ => 1) 192
    (by decide) (by decide)
  revert this
  decide

end SmpHashTable
