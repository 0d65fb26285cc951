import SmpHashTable.Lib.Outcome
import SmpHashTable.Util

/-!
# Element memory

Elements live in blocks obtained from `memalign` and given back with `free`.  The allocator is
outside the repository: each call receives its answer from the environment, and an answer that
breaks the documented contract (a fresh block, disjoint from every live block) stops the run with
`Stop.memalignContract`, so that nothing is proved about an allocator that does not exist.  Use of
a block that is not live stops the run with `Stop.fault`; that such a stop is unreachable is a
theorem, never an assumption.

The header of an element is kept as a record per address.  The value bytes behind the header are
not stored here; which bytes a block contains is the subject of `SmpHashTable.Storage`.
-/

namespace SmpHashTable

/-- Why a run stops instead of going on. -/
inductive Stop
  /-- The thread cannot take the requested step in this state. -/
  | notEnabled
  /-- An `assert` of the code failed. -/
  | assertFailed
  /-- A block that is not live was used, or `NULL` was dereferenced. -/
  | fault
  /-- The environment's answer to `memalign` is not one `memalign` can give. -/
  | memalignContract
  /-- The given `read_tsc` readings never select a non-empty bucket. -/
  | diverged
  deriving DecidableEq, Repr

/-- The fields of `struct elem` that the code reads, apart from its list links. -/
structure Elem where
  key : ℕ
  refCount : ℕ
  size : ℕ
  deriving DecidableEq, Repr, Inhabited

/-- `sizeof(struct elem)`: four words and two pairs of list pointers. -/
def sizeofElem : ℕ := 64

/-- Element headers by address, and the live blocks as pairs of address and length. -/
structure Mem where
  elem : ℕ → Elem
  blocks : List (ℕ × ℕ)

namespace Mem

def empty : Mem := ⟨fun _ => default, []⟩

/-- A live block starts at `a`. -/
def Live (m : Mem) (a : ℕ) : Prop := a ∈ m.blocks.map Prod.fst

instance (m : Mem) (a : ℕ) : Decidable (m.Live a) :=
  inferInstanceAs (Decidable (a ∈ m.blocks.map Prod.fst))

/-- Overwrite the header at `a`. -/
def setElem (m : Mem) (a : ℕ) (e : Elem) : Mem := { m with elem := Function.update m.elem a e }

/-- The contract of `memalign` for a block of `n` bytes at `a`: it lies in the address space and is
distinct and disjoint from every live block. -/
def Fresh (m : Mem) (a n : ℕ) : Prop :=
  0 < a ∧ a + n < 2 ^ 64 ∧ ∀ b ∈ m.blocks, b.1 ≠ a ∧ (a + n ≤ b.1 ∨ b.1 + b.2 ≤ a)

instance (m : Mem) (a n : ℕ) : Decidable (m.Fresh a n) :=
  inferInstanceAs (Decidable (_ ∧ _ ∧ _))

@[simp] theorem setElem_blocks (m : Mem) (a : ℕ) (e : Elem) : (m.setElem a e).blocks = m.blocks := rfl

@[simp] theorem setElem_live (m : Mem) (a b : ℕ) (e : Elem) : (m.setElem a e).Live b ↔ m.Live b :=
  Iff.rfl

@[simp] theorem setElem_self (m : Mem) (a : ℕ) (e : Elem) : (m.setElem a e).elem a = e := by
  simp [setElem]

theorem setElem_of_ne (m : Mem) {a b : ℕ} (e : Elem) (h : b ≠ a) :
    (m.setElem a e).elem b = m.elem b := by
  simp [setElem, h]

end Mem

/-- `memalign(boundary, n)` with the environment's answer; `none` is `NULL`. -/
def memalign (m : Mem) (_boundary n : ℕ) : Option ℕ → Except Stop (Option ℕ × Mem)
  | none => .ok (none, m)
  | some a =>
      if m.Fresh a n then .ok (some a, { m with blocks := (a, n) :: m.blocks })
      else .error .memalignContract

/-- `free(e)`. -/
def free (m : Mem) (e : ℕ) : Except Stop Mem :=
  if m.Live e then .ok { m with blocks := m.blocks.filter fun b => b.1 ≠ e } else .error .fault

/-- `DATA_READY_MASK` of `smphashtable.c`. -/
def DATA_READY_MASK : ℕ := 0x8000000000000000

/-- `x & (~DATA_READY_MASK)`. -/
def clearReadyMask (x : ℕ) : ℕ := x &&& (2 ^ 64 - 1 - DATA_READY_MASK)

/-- `is_value_ready`. -/
def isValueReady (m : Mem) (e : ℕ) : Bool := (m.elem e).refCount &&& DATA_READY_MASK = 0

/-- The common end of the release functions: store the new count and free the element at zero. -/
def storeRefCount (m : Mem) (e rc : ℕ) : Except Stop Mem :=
  if m.Live e then
    let m' := m.setElem e { m.elem e with refCount := rc }
    if rc = 0 then free m' e else .ok m'
  else .error .fault

/-- `mp_release_value_`. -/
def mpReleaseValue_ (m : Mem) (e : ℕ) : Except Stop Mem :=
  storeRefCount m e (sub64 (clearReadyMask (m.elem e).refCount) 1)

/-- `atomic_release_value_`. -/
def atomicReleaseValue_ (m : Mem) (e : ℕ) : Except Stop Mem :=
  storeRefCount m e (sub64 (m.elem e).refCount 1)

/-! ### What the release functions can do -/

/-- `m'` differs from `m` at most in the count of `e` and in whether `e` is live. -/
structure ReleaseFrame (m m' : Mem) (e : ℕ) : Prop where
  live_before : m.Live e
  elem_of_ne : ∀ a, a ≠ e → m'.elem a = m.elem a
  key_eq : (m'.elem e).key = (m.elem e).key
  size_eq : (m'.elem e).size = (m.elem e).size
  blocks_of_ne : ∀ b : ℕ × ℕ, b.1 ≠ e → (b ∈ m'.blocks ↔ b ∈ m.blocks)
  blocks_sub : ∀ b ∈ m'.blocks, b ∈ m.blocks

theorem ReleaseFrame.key {m m' : Mem} {e : ℕ} (h : ReleaseFrame m m' e) (a : ℕ) :
    (m'.elem a).key = (m.elem a).key := by
  by_cases ha : a = e
  · rw [ha, h.key_eq]
  · rw [h.elem_of_ne a ha]

theorem ReleaseFrame.size {m m' : Mem} {e : ℕ} (h : ReleaseFrame m m' e) (a : ℕ) :
    (m'.elem a).size = (m.elem a).size := by
  by_cases ha : a = e
  · rw [ha, h.size_eq]
  · rw [h.elem_of_ne a ha]

theorem ReleaseFrame.live_of_ne {m m' : Mem} {e : ℕ} (h : ReleaseFrame m m' e) {a : ℕ}
    (ha : a ≠ e) : m'.Live a ↔ m.Live a := by
  unfold Mem.Live
  simp only [List.mem_map]
  constructor
  · rintro ⟨b, hb, rfl⟩
    exact ⟨b, h.blocks_sub b hb, rfl⟩
  · rintro ⟨b, hb, rfl⟩
    exact ⟨b, (h.blocks_of_ne b ha).mpr hb, rfl⟩

/-- A release either keeps the element with its new count or frees it. -/
theorem storeRefCount_ok {m m' : Mem} {e rc : ℕ} (h : storeRefCount m e rc = .ok m') :
    m.Live e ∧ m'.elem = (m.setElem e { m.elem e with refCount := rc }).elem ∧
      m'.blocks = if rc = 0 then m.blocks.filter (fun b => b.1 ≠ e) else m.blocks := by
  unfold storeRefCount free at h
  by_cases hl : m.Live e
  · by_cases hrc : rc = 0
    · simp [hl, hrc] at h
      subst h
      simp [hl, hrc]
    · simp [hl, hrc] at h
      subst h
      simp [hl, hrc]
  · simp [hl] at h

theorem storeRefCount_total {m : Mem} {e : ℕ} (rc : ℕ) (h : m.Live e) :
    ∃ m', storeRefCount m e rc = .ok m' := by
  unfold storeRefCount free
  by_cases hrc : rc = 0 <;> simp [h, hrc]

theorem storeRefCount_frame {m m' : Mem} {e rc : ℕ} (h : storeRefCount m e rc = .ok m') :
    ReleaseFrame m m' e := by
  obtain ⟨hl, helem, hblocks⟩ := storeRefCount_ok h
  refine ⟨hl, ?_, by simp [helem], by simp [helem], ?_, ?_⟩
  · intro a ha
    rw [helem, Mem.setElem_of_ne m _ ha]
  · intro b hb
    rw [hblocks]
    split <;> simp [hb]
  · intro b hb
    rw [hblocks] at hb
    split at hb
    · exact List.mem_filter.mp hb |>.1
    · exact hb

/-- A `release_value_f`: the callback of `hash_insert` and `destroy_hash_partition`, with what
every such function of the code guarantees. -/
structure ReleaseValueF where
  run : Mem → ℕ → Except Stop Mem
  frame : ∀ {m m' : Mem} {e : ℕ}, run m e = .ok m' → ReleaseFrame m m' e
  total : ∀ {m : Mem} {e : ℕ}, m.Live e → ∃ m', run m e = .ok m'

def mpRelease : ReleaseValueF where
  run := mpReleaseValue_
  frame := storeRefCount_frame
  total := storeRefCount_total _

def atomicRelease : ReleaseValueF where
  run := atomicReleaseValue_
  frame := storeRefCount_frame
  total := storeRefCount_total _

/-- A returned block was fresh and is live afterwards. -/
theorem memalign_some {m m' : Mem} {boundary n a : ℕ} {answer : Option ℕ}
    (h : memalign m boundary n answer = .ok (some a, m')) :
    m.Fresh a n ∧ m' = { m with blocks := (a, n) :: m.blocks } := by
  cases answer with
  | none => simp [memalign] at h
  | some b =>
      by_cases hf : m.Fresh b n
      · simp only [memalign, hf, if_true, Except.ok.injEq, Prod.mk.injEq, Option.some.injEq] at h
        obtain ⟨rfl, rfl⟩ := h
        exact ⟨hf, rfl⟩
      · simp [memalign, hf] at h

theorem memalign_none {m m' : Mem} {boundary n : ℕ} {answer : Option ℕ}
    (h : memalign m boundary n answer = .ok (none, m')) : m' = m := by
  cases answer with
  | none => simpa [memalign] using h.symm
  | some b =>
      by_cases hf : m.Fresh b n <;> simp [memalign, hf] at h

theorem memalign_ne_fault (m : Mem) (boundary n : ℕ) (answer : Option ℕ) :
    memalign m boundary n answer ≠ .error .fault := by
  cases answer with
  | none => exact nofun
  | some a =>
      rw [memalign]
      split <;> exact nofun

theorem Mem.Fresh.not_live {m : Mem} {a n : ℕ} (h : m.Fresh a n) : ¬ m.Live a := by
  intro hl
  obtain ⟨b, hb, rfl⟩ := List.mem_map.mp hl
  exact (h.2.2 b hb).1 rfl

end SmpHashTable
