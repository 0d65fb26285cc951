import Mathlib.Logic.Function.Basic
import Mathlib.Data.List.Perm.Basic
import Mathlib.Data.List.Nodup
import Mathlib.Algebra.BigOperators.Group.List.Basic

/-!
# Families of lists, one of which changes

A table of chains is a function from bucket numbers to lists.  Its contents are the
concatenation over the buckets in use; removing an element from one chain, or adding one,
changes the concatenation by that element, up to a permutation.
-/

namespace Lists

variable {α : Type*}

/-- The concatenation of the first `n` lists of a family. -/
def cat (n : ℕ) (f : ℕ → List α) : List α := (List.range n).flatMap f

theorem mem_cat {n : ℕ} {f : ℕ → List α} {a : α} : a ∈ cat n f ↔ ∃ b, b < n ∧ a ∈ f b := by
  simp [cat]

theorem cat_const_nil (n : ℕ) : cat n (fun _ => ([] : List α)) = [] := by
  simp [cat]

/-- The list at index `b` can be moved to the front. -/
theorem cat_perm_front {n b : ℕ} (hb : b < n) (f : ℕ → List α) :
    (cat n f).Perm (f b ++ ((List.range n).erase b).flatMap f) := by
  have h := List.perm_cons_erase (List.mem_range.mpr hb)
  simpa [cat] using h.flatMap_right f

theorem flatMap_update_of_notMem {l : List ℕ} {b : ℕ} (hb : b ∉ l) (f : ℕ → List α) (x : List α) :
    l.flatMap (Function.update f b x) = l.flatMap f := by
  apply List.flatMap_congr
  intro i hi
  rw [Function.update_of_ne]
  rintro rfl
  exact hb hi

/-- What is taken from the list at `b` is taken from the concatenation. -/
theorem cat_split {n b : ℕ} (hb : b < n) (f : ℕ → List α) {x y : List α} (h : (f b).Perm (y ++ x)) :
    (cat n f).Perm (y ++ cat n (Function.update f b x)) := by
  have hnot : b ∉ (List.range n).erase b := by
    rw [List.nodup_range.mem_erase_iff]
    exact fun hmem => hmem.1 rfl
  have hfront := cat_perm_front hb (Function.update f b x)
  rw [Function.update_self, flatMap_update_of_notMem hnot] at hfront
  refine (cat_perm_front hb f).trans ((h.append_right _).trans ?_)
  rw [List.append_assoc]
  exact hfront.symm.append_left y

/-- Replacing the list at `b` by one that is a permutation of it plus `a` adds `a`. -/
theorem cat_update_perm {n b : ℕ} (hb : b < n) (f : ℕ → List α) {x : List α} {a : α}
    (h : x.Perm (a :: f b)) : (cat n (Function.update f b x)).Perm (a :: cat n f) := by
  have hsplit := cat_split hb (Function.update f b x) (x := f b) (y := [a])
    (by rw [Function.update_self]; exact h)
  rwa [Function.update_idem, Function.update_eq_self] at hsplit

theorem cat_erase_perm [DecidableEq α] {n b : ℕ} (hb : b < n) (f : ℕ → List α) {a : α}
    (ha : a ∈ f b) : (cat n f).Perm (a :: cat n (Function.update f b ((f b).erase a))) := by
  have h := cat_update_perm hb (Function.update f b ((f b).erase a)) (x := f b) (a := a)
    (by rw [Function.update_self]; exact List.perm_cons_erase ha)
  rwa [Function.update_idem, Function.update_eq_self] at h

theorem cat_concat_perm {n b : ℕ} (hb : b < n) (f : ℕ → List α) (a : α) :
    (cat n (Function.update f b (f b ++ [a]))).Perm (a :: cat n f) :=
  cat_update_perm hb f (List.perm_append_singleton a (f b))

/-- Chains without repetition whose members determine their chain concatenate without repetition. -/
theorem nodup_cat {n : ℕ} {f : ℕ → List α} (hnd : ∀ b, (f b).Nodup)
    (hdis : ∀ a b b', a ∈ f b → a ∈ f b' → b = b') : (cat n f).Nodup := by
  rw [cat, List.nodup_flatMap]
  refine ⟨fun b _ => hnd b, ?_⟩
  refine List.Pairwise.imp_of_mem ?_ List.nodup_range
  intro b b' _ _ hne a ha ha'
  exact hne (hdis a b b' ha ha')

/-- An element that passes the filter stands in the filtered list behind those before it that do. -/
theorem getElem?_filter_countP {p : α → Bool} {l : List α} {i : ℕ} {a : α} (h : l[i]? = some a)
    (ha : p a = true) : (l.filter p)[(l.take i).countP p]? = some a := by
  induction l generalizing i with
  | nil => simp at h
  | cons b l ih =>
      cases i with
      | zero =>
          cases h
          simp [ha]
      | succ i =>
          have hi := ih (i := i) (by simpa using h)
          by_cases hb : p b = true
          · simpa [List.filter_cons, hb] using hi
          · simpa [List.filter_cons, hb] using hi

theorem filterMap_cons_toList {β : Type*} (f : α → Option β) (a : α) (l : List α) :
    (a :: l).filterMap f = (f a).toList ++ l.filterMap f := by
  cases hf : f a <;> simp [hf]

/-- Changing a function at one member of a list changes the count by that member. -/
theorem countP_update {β : Type*} [DecidableEq α] {l : List α} {a : α} (hnd : l.Nodup) (ha : a ∈ l)
    (f : α → β) (x : β) (p : β → Bool) :
    l.countP (fun b => p (Function.update f a x b)) + (if p (f a) then 1 else 0)
      = l.countP (fun b => p (f b)) + if p x then 1 else 0 := by
  have hperm := List.perm_cons_erase ha
  have hrest : (l.erase a).countP (fun b => p (Function.update f a x b))
      = (l.erase a).countP fun b => p (f b) := by
    apply List.countP_congr
    intro b hb
    rw [Function.update_of_ne ((hnd.mem_erase_iff).mp hb).1]
  rw [hperm.countP_eq, hperm.countP_eq, List.countP_cons, List.countP_cons, Function.update_self,
    hrest]
  omega

/-- A property that at most one place of a list has counts once. -/
theorem countP_le_one {l : List α} {p : α → Bool}
    (h : ∀ (i j : ℕ) (a b : α), l[i]? = some a → l[j]? = some b → p a → p b → i = j) :
    l.countP p ≤ 1 := by
  induction l with
  | nil => simp
  | cons a l ih =>
      have htail := ih fun i j b c hb hc hpb hpc => by
        have := h (i + 1) (j + 1) b c (by simpa using hb) (by simpa using hc) hpb hpc
        omega
      rw [List.countP_cons]
      by_cases ha : p a = true
      · have hzero : l.countP p = 0 := by
          rw [List.countP_eq_zero]
          intro b hb hpb
          obtain ⟨i, hi⟩ := List.getElem?_of_mem hb
          have := h 0 (i + 1) a b (by simp) (by simpa using hi) ha hpb
          omega
        simp [hzero, ha]
      · rw [if_neg ha]
        exact htail

end Lists
