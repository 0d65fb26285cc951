import SmpHashTable.Lib.LruCache

/-!
# A cache whose values are filled in after the insert

An LRU cache (`LruCache`) in which a value that was inserted is not found until it has been published.
Whoever inserts a value fills it in and publishes it then; the entry may have been dropped by that
time.  A lookup of an entry that is being filled misses, but counts as a use of the entry.
-/

namespace FillingCache

open LruCache (Entry)

variable {κ β : Type*}

/-- The entries, and the values that have not been published, whether they are in the cache or not. -/
@[ext] structure Cache (κ β : Type*) where
  entries : List (Entry κ β)
  filling : List β

def Cache.empty : Cache κ β := ⟨[], []⟩

inductive Op (κ β : Type*)
  | lookup (k : κ)
  | insert (k : κ) (size : ℕ) (v : β)
  | publish (v : β)
  deriving DecidableEq

/-- What an operation shows: the value found, and the values dropped, in order. -/
structure Out (β : Type*) where
  hit : Option β
  dropped : List β
  deriving DecidableEq

section

variable [DecidableEq κ] [DecidableEq β]

def lookup (k : κ) (c : Cache κ β) : Cache κ β × Out β :=
  (⟨(LruCache.lookup k c.entries).2, c.filling⟩,
    ⟨((LruCache.lookup k c.entries).1.map Entry.val).filter (· ∉ c.filling), []⟩)

def insert (cap : ℕ) (k : κ) (size : ℕ) (v : β) (c : Cache κ β) : Cache κ β × Out β :=
  (⟨(LruCache.insert cap ⟨k, size, v⟩ c.entries).1, v :: c.filling⟩,
    ⟨none, (LruCache.insert cap ⟨k, size, v⟩ c.entries).2.map Entry.val⟩)

def publish (v : β) (c : Cache κ β) : Cache κ β × Out β :=
  (⟨c.entries, c.filling.filter (· ≠ v)⟩, ⟨none, []⟩)

/-- One operation on a cache of `cap` bytes. -/
def Op.run (cap : ℕ) (c : Cache κ β) : Op κ β → Cache κ β × Out β
  | .lookup k => FillingCache.lookup k c
  | .insert k size v => FillingCache.insert cap k size v c
  | .publish v => FillingCache.publish v c

/-- An inserted value is not the value of an entry that stays, and is not being filled. -/
def Op.New (cap : ℕ) (c : Cache κ β) : Op κ β → Prop
  | .insert k size v => ((LruCache.insert cap ⟨k, size, v⟩ c.entries).1.map Entry.val).Nodup ∧ v ∉ c.filling
  | _ => True

/-- From `c` the operations show what is noted beside them, and lead to `c'`. -/
def Shows (cap : ℕ) : Cache κ β → List (Op κ β × Out β) → Cache κ β → Prop
  | c, [], c' => c' = c
  | c, x :: h, c' => x.1.New cap c ∧ (x.1.run cap c).2 = x.2 ∧ Shows cap (x.1.run cap c).1 h c'

theorem shows_append {cap : ℕ} {c c' : Cache κ β} {h h' : List (Op κ β × Out β)} :
    Shows cap c (h ++ h') c' ↔ ∃ c₁, Shows cap c h c₁ ∧ Shows cap c₁ h' c' := by
  induction h generalizing c with
  | nil => exact ⟨fun hs => ⟨c, rfl, hs⟩, fun ⟨_, heq, hs⟩ => by cases heq; exact hs⟩
  | cons x h ih =>
      rw [List.cons_append]
      constructor
      · rintro ⟨hnew, hout, hs⟩
        obtain ⟨c₁, h₁, h₂⟩ := ih.mp hs
        exact ⟨c₁, ⟨hnew, hout, h₁⟩, h₂⟩
      · rintro ⟨c₁, ⟨hnew, hout, h₁⟩, h₂⟩
        exact ⟨hnew, hout, ih.mpr ⟨c₁, h₁, h₂⟩⟩

/-- What the operations show determines where they lead. -/
theorem Shows.unique {cap : ℕ} {c c₁ c₂ : Cache κ β} {h : List (Op κ β × Out β)} (h₁ : Shows cap c h c₁)
    (h₂ : Shows cap c h c₂) : c₁ = c₂ := by
  induction h generalizing c with
  | nil => exact h₁.trans h₂.symm
  | cons x h ih => exact ih h₁.2.2 h₂.2.2

/-- A history shows what a cache shows from empty on: the operations with what was observed of each. -/
def Explains (cap : ℕ) (h : List (Op κ β × Out β)) (c : Cache κ β) : Prop := Shows cap .empty h c

theorem explains_nil (cap : ℕ) : Explains cap ([] : List (Op κ β × Out β)) .empty := rfl

/-- A history without its last operation. -/
theorem Explains.init {cap : ℕ} {h : List (Op κ β × Out β)} {x : Op κ β × Out β} {c' : Cache κ β}
    (hc' : Explains cap (h ++ [x]) c') :
    ∃ c, Explains cap h c ∧ x.1.New cap c ∧ (x.1.run cap c).2 = x.2 ∧ c' = (x.1.run cap c).1 := by
  obtain ⟨c, hc, hnew, hout, hlast⟩ := shows_append.mp hc'
  exact ⟨c, hc, hnew, hout, hlast⟩

/-- The last operation of a history. -/
theorem Explains.last {cap : ℕ} {h : List (Op κ β × Out β)} {x : Op κ β × Out β} {c c' : Cache κ β}
    (hc : Explains cap h c) (hc' : Explains cap (h ++ [x]) c') :
    x.1.New cap c ∧ (x.1.run cap c).2 = x.2 ∧ c' = (x.1.run cap c).1 := by
  obtain ⟨c₁, h₁, hlast⟩ := hc'.init
  cases hc.unique h₁
  exact hlast

/-- A history goes on with what the cache does next. -/
theorem Explains.concat {cap : ℕ} {h : List (Op κ β × Out β)} {c c' : Cache κ β} (hc : Explains cap h c)
    {op : Op κ β} {out : Out β} (hnew : op.New cap c) (hop : op.run cap c = (c', out)) :
    Explains cap (h ++ [(op, out)]) c' := by
  refine shows_append.mpr ⟨c, hc, hnew, ?_, ?_⟩
  · rw [hop]
  · rw [hop]
    rfl

end

end FillingCache
