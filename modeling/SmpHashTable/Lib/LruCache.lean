import Mathlib.Data.List.Nodup
import Mathlib.Algebra.BigOperators.Group.List.Basic
import Mathlib.Algebra.GroupWithZero.Nat

/-!
# A cache with least-recently-used replacement

The cache is one list of entries, most recently used first.  An entry has a key, a size and a
payload.  Looking a key up moves its entry to the front; inserting drops the old entry of the key,
then drops entries from the back while the total including the new entry exceeds the capacity, and
puts the new entry in front.
-/

namespace LruCache

variable {κ β : Type*}

/-- A cached entry. -/
@[ext] structure Entry (κ β : Type*) where
  key : κ
  size : ℕ
  val : β
  deriving DecidableEq, Repr

/-- The bytes in use. -/
def total (es : List (Entry κ β)) : ℕ := (es.map Entry.size).sum

/-- The entry of a key, and the list with that entry in front. -/
def lookup [DecidableEq κ] (k : κ) (es : List (Entry κ β)) : Option (Entry κ β) × List (Entry κ β) :=
  match es.find? (fun e => e.key = k) with
  | some e => (some e, e :: es.filter fun e => e.key ≠ k)
  | none => (none, es)

/-- Make room for `need` bytes, on the list with its least recently used entry first: the entries
kept and the entries dropped. -/
def trim (cap need : ℕ) : List (Entry κ β) → List (Entry κ β) × List (Entry κ β)
  | [] => ([], [])
  | e :: es =>
      if total (e :: es) + need ≤ cap then (e :: es, [])
      else ((trim cap need es).1, e :: (trim cap need es).2)

/-- The entries after an insert, and the entries dropped by it in order. -/
def insert [DecidableEq κ] (cap : ℕ) (new : Entry κ β) (es : List (Entry κ β)) :
    List (Entry κ β) × List (Entry κ β) :=
  let rest := es.filter fun e => e.key ≠ new.key
  let r := trim cap new.size rest.reverse
  (new :: r.1.reverse, es.filter (fun e => e.key = new.key) ++ r.2)

theorem total_reverse (es : List (Entry κ β)) : total es.reverse = total es := by
  rw [total, total, List.map_reverse, List.sum_reverse]

/-- Nothing is dropped when the new entry fits. -/
theorem trim_fits {cap need : ℕ} {es : List (Entry κ β)} (h : total es + need ≤ cap) :
    trim cap need es = (es, []) := by
  cases es with
  | nil => rfl
  | cons e es => exact if_pos h

/-- The first entry is dropped when the new entry does not fit. -/
theorem trim_drop {cap need : ℕ} {e : Entry κ β} {es : List (Entry κ β)}
    (h : ¬ total (e :: es) + need ≤ cap) :
    trim cap need (e :: es) = ((trim cap need es).1, e :: (trim cap need es).2) :=
  if_neg h

/-- In a list without repeated keys, the entries of one key are at most one. -/
theorem filter_key_eq [DecidableEq κ] {es : List (Entry κ β)} (hnd : (es.map Entry.key).Nodup) {e : Entry κ β}
    (he : e ∈ es) : es.filter (fun x => x.key = e.key) = [e] := by
  induction es with
  | nil => cases he
  | cons x xs ih =>
      rw [List.map_cons, List.nodup_cons] at hnd
      rcases List.mem_cons.mp he with rfl | hxs
      · have hnone : xs.filter (fun y => y.key = e.key) = [] := by
          rw [List.filter_eq_nil_iff]
          intro y hy hkey
          exact hnd.1 (List.mem_map.mpr ⟨y, hy, by simpa using hkey⟩)
        simp [hnone]
      · have hne : x.key ≠ e.key := fun heq => hnd.1 (List.mem_map.mpr ⟨e, hxs, heq.symm⟩)
        simp [hne, ih hnd.2 hxs]

end LruCache
