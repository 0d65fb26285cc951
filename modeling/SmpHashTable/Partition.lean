import SmpHashTable.Lib.Lists
import SmpHashTable.Memory

/-!
# A hash table partition

The functions of `partition.c`.  A `TAILQ` is the list of the addresses of its elements:
`TAILQ_FIRST`, `TAILQ_LAST`, `TAILQ_REMOVE`, `TAILQ_INSERT_HEAD` and `TAILQ_INSERT_TAIL` are
`head?`, `getLast?`, `erase`, `cons` and the append of one element.  Keys, counts and sizes of the
elements are read from memory, as the code reads them through the element pointers.

What the environment decides during one `hash_insert` comes in as two lists: the answers of
`memalign`, one for each call (no further answer means `NULL`), and the readings of `read_tsc`.
-/

namespace SmpHashTable

/-- `enum evictalgo`. -/
inductive Evictalgo
  | lru
  | random
  deriving DecidableEq, Repr

/-- `struct partition`, without its counters of requests and clock ticks and its locks. -/
structure Partition where
  nhash : ℕ
  maxSize : ℕ
  size : ℕ
  evictalgo : Evictalgo
  table : ℕ → List ℕ
  lru : List ℕ

/-- `BUCKET_LOAD`. -/
def BUCKET_LOAD : ℕ := 2 * 128

/-- `max` of `util.h`. -/
def max (a b : ℤ) : ℤ := if a > b then a else b

/-- The value given to `p->nhash`, with the double-precision `ceil` of the quotient taken as the
exact integer ceiling.  The argument of `max` is converted to `int` first. -/
def initNhash (maxSize nservers : ℕ) : ℤ :=
  -(-(max 10 (intOfWord (maxSize / BUCKET_LOAD))) / nservers) * nservers - 1

/-- A partition with `nhash` empty chains. -/
def emptyPartition (nhash maxSize : ℕ) (evictalgo : Evictalgo) : Partition :=
  { nhash, maxSize, size := 0, evictalgo, table := fun _ => [], lru := [] }

/-- `init_hash_partition`. -/
def initHashPartition (maxSize nservers : ℕ) (evictalgo : Evictalgo) : Partition :=
  emptyPartition (initNhash maxSize nservers).toNat maxSize evictalgo

/-- `hash_get_bucket`. -/
def hashGetBucket (p : Partition) (key : ℕ) : ℕ := key % p.nhash

/-- `hash_remove`.  Its `assert(p->size >= 0)` holds for every unsigned value. -/
def hashRemove (p : Partition) (m : Mem) (e : ℕ) : Partition :=
  let b := hashGetBucket p (m.elem e).key
  { p with
    size := sub64 p.size (m.elem e).size
    table := Function.update p.table b ((p.table b).erase e)
    lru := if p.evictalgo = .lru then p.lru.erase e else p.lru }

/-- `lru`. -/
def lru (p : Partition) (e : ℕ) : Partition := { p with lru := e :: p.lru.erase e }

/-- `hash_lookup`: the element found, and the partition with its recency list updated. -/
def hashLookup (p : Partition) (m : Mem) (key : ℕ) : Option ℕ × Partition :=
  match (p.table (hashGetBucket p key)).find? fun e => (m.elem e).key = key with
  | some e => (some e, if p.evictalgo = .lru then lru p e else p)
  | none => (none, p)

/-- `elem_size`: header and value rounded up to a multiple of `CACHELINE`, in `size_t`. -/
def elemSize (size : ℤ) : ℕ :=
  add64 (wordOfInt (sizeofElem + size)) (CACHELINE - 1) &&& (2 ^ 64 - CACHELINE)

/-- The victim of `EVICT_RANDOM`: the first element of the first selected bucket that is not empty,
and the readings left. -/
def randomVictim (p : Partition) : List ℕ → Except Stop (ℕ × List ℕ)
  | [] => .error .diverged
  | t :: tscs =>
      match (p.table (t % p.nhash)).head? with
      | some l => .ok (l, tscs)
      | none => randomVictim p tscs

/-- The `switch` on the eviction algorithm; an empty `TAILQ_LAST` is the `NULL` that
`hash_remove` then dereferences. -/
def victim (p : Partition) (tscs : List ℕ) : Except Stop (ℕ × List ℕ) :=
  match p.evictalgo with
  | .lru =>
      match p.lru.getLast? with
      | some l => .ok (l, tscs)
      | none => .error .fault
  | .random => randomVictim p tscs

/-- A call of `hash_remove` and the release that follows it: the element, and the two operands of
the subtraction `p->size -= e->size`. -/
structure Removal where
  e : ℕ
  sizeBefore : ℕ
  elemSize : ℕ
  deriving DecidableEq, Repr

def removal (p : Partition) (m : Mem) (e : ℕ) : Removal := ⟨e, p.size, (m.elem e).size⟩

/-- The part of the eviction loop that makes room: the assertion, the victim, its removal and its
release. -/
def evictOne (release : ReleaseValueF) (esize : ℕ) (tscs : List ℕ) (p : Partition) (m : Mem) :
    Except Stop (Removal × List ℕ × Partition × Mem) :=
  if p.size > esize then do
    let (l, tscs) ← victim p tscs
    let m' ← release.run m l
    return (removal p m l, tscs, hashRemove p m l, m')
  else .error .assertFailed

/-- The `while (1)` loop of `hash_insert`.  It returns the new block, the partition, the memory and
the removals so far.  The fuel bounds the number of evictions; `hash_insert` supplies more
than there are elements. -/
def evictLoop (release : ReleaseValueF) (boundary esize : ℕ) :
    ℕ → List (Option ℕ) → List ℕ → Partition → Mem → List Removal →
      Except Stop (ℕ × Partition × Mem × List Removal)
  | 0, _, _, _, _, _ => .error .diverged
  | fuel + 1, allocs, tscs, p, m, removed =>
      if p.size ≤ p.maxSize then do
        let (got, m) ← memalign m boundary CACHELINE (allocs.headD none)
        match got with
        | some e => return (e, p, m, removed)
        | none =>
            let (l, tscs, p, m) ← evictOne release esize tscs p m
            evictLoop release boundary esize fuel allocs.tail tscs p m (removed ++ [l])
      else do
        let (l, tscs, p, m) ← evictOne release esize tscs p m
        evictLoop release boundary esize fuel allocs tscs p m (removed ++ [l])

/-- The elements in the chains. -/
def Partition.elems (p : Partition) : List ℕ := Lists.cat p.nhash p.table

/-- What the environment decides during one call. -/
structure Oracle where
  allocs : List (Option ℕ)
  tscs : List ℕ
  deriving DecidableEq, Repr

/-- The result of `hash_insert`: the new element and the elements removed and released, in order. -/
structure Inserted where
  e : ℕ
  p : Partition
  m : Mem
  removed : List Removal

/-- The overwrite of an element that has the key already. -/
def dropOld (release : ReleaseValueF) (p : Partition) (m : Mem) :
    Option ℕ → Except Stop (Partition × Mem × List Removal)
  | some e => do
      let m' ← release.run m e
      return (hashRemove p m e, m', [removal p m e])
  | none => .ok (p, m, [])

/-- The end of `hash_insert`: fill the header and link the element. -/
def linkElem (p : Partition) (m : Mem) (e key esize : ℕ) : Partition × Mem :=
  let b := hashGetBucket p key
  ({ p with
      table := Function.update p.table b (p.table b ++ [e])
      lru := if p.evictalgo = .lru then e :: p.lru else p.lru },
    m.setElem e { m.elem e with key := key, size := esize })

/-- `hash_insert`. -/
def hashInsert (p : Partition) (m : Mem) (key : ℕ) (size : ℤ) (release : ReleaseValueF)
    (o : Oracle) : Except Stop Inserted := do
  let (old, p) := hashLookup p m key
  let (p, m, removed) ← dropOld release p m old
  let esize := elemSize size
  let p := { p with size := add64 p.size esize }
  let (e, p, m, removed) ←
    evictLoop release (wordOfInt (sizeofElem + size)) esize (p.elems.length + 1) o.allocs o.tscs p m
      removed
  let (p, m) := linkElem p m e key esize
  return { e, p, m, removed }

/-- The stages of `hash_insert` one after the other. -/
theorem hashInsert_eq (p : Partition) (m : Mem) (key : ℕ) (size : ℤ) (release : ReleaseValueF)
    (o : Oracle) : hashInsert p m key size release o =
      (dropOld release (hashLookup p m key).2 m (hashLookup p m key).1 >>= fun x =>
        let p₁ := { x.1 with size := add64 x.1.size (elemSize size) }
        evictLoop release (wordOfInt (sizeofElem + size)) (elemSize size) (p₁.elems.length + 1)
          o.allocs o.tscs p₁ x.2.1 x.2.2 >>= fun y =>
        .ok ⟨y.1, (linkElem y.2.1 y.2.2.1 y.1 key (elemSize size)).1,
          (linkElem y.2.1 y.2.2.1 y.1 key (elemSize size)).2, y.2.2.2⟩) := rfl

/-- `destroy_hash_partition`, the loops over the chains: `dbg_p_size` and the memory. -/
def destroyChains (release : ReleaseValueF) : List ℕ → ℕ → Mem → Except Stop (ℕ × Mem)
  | [], dbg, m => .ok (dbg, m)
  | e :: es, dbg, m => do
      let m' ← release.run m e
      destroyChains release es (add64 dbg (m.elem e).size) m'

/-- `destroy_hash_partition`. -/
def destroyHashPartition (p : Partition) (m : Mem) (release : ReleaseValueF) : Except Stop Mem := do
  let (dbg, m) ← destroyChains release p.elems 0 m
  if p.size = dbg then .ok m else .error .assertFailed

end SmpHashTable
