import Mathlib.Data.Nat.ModEq
import Mathlib.Data.Nat.ChineseRemainder
import Mathlib.Order.Interval.Finset.Nat
import Mathlib.Tactic.Ring

/-!
# Residues modulo two coprime numbers in a window

Two numbers that are coprime give every pair of residues exactly once in a window of as many
consecutive numbers as their product, wherever the window starts, and `w` times in `w` such windows.
-/

namespace Residues

/-- Every residue class meets a window of `N` consecutive numbers. -/
theorem exists_modEq (a r : ℕ) {N : ℕ} (hN : 0 < N) : ∃ k, (a ≤ k ∧ k < a + N) ∧ k ≡ r [MOD N] := by
  have hlt : (r + (N - 1) * a) % N < N := Nat.mod_lt _ hN
  refine ⟨a + (r + (N - 1) * a) % N, ⟨by omega, by omega⟩, ?_⟩
  have hsum : a + (r + (N - 1) * a) = r + N * a := by
    obtain ⟨M, rfl⟩ : ∃ M, N = M + 1 := ⟨N - 1, by omega⟩
    rw [show M + 1 - 1 = M from by omega]
    ring
  calc a + (r + (N - 1) * a) % N ≡ a + (r + (N - 1) * a) [MOD N] :=
        Nat.ModEq.add_left a (Nat.mod_modEq _ _)
    _ = r + N * a := hsum
    _ ≡ r [MOD N] := by
        show (r + N * a) % N = r % N
        rw [Nat.add_mul_mod_self_left]

/-- Two members of one class in a window of `N` consecutive numbers are equal. -/
theorem eq_of_modEq {a k k' N : ℕ} (hk : a ≤ k ∧ k < a + N) (hk' : a ≤ k' ∧ k' < a + N)
    (h : k ≡ k' [MOD N]) : k = k' := by
  refine h.eq_of_abs_lt ?_
  rw [abs_lt]
  omega

/-- **One key for each pair of residues (proved).** -/
theorem exists_unique {s n : ℕ} (h : Nat.Coprime s n) (a : ℕ) {i j : ℕ} (hi : i < s) (hj : j < n) :
    ∃! k, (a ≤ k ∧ k < a + s * n) ∧ k % s = i ∧ k % n = j := by
  have hpos : 0 < s * n := Nat.mul_pos (by omega) (by omega)
  obtain ⟨r, hrs, hrn⟩ := Nat.chineseRemainder h i j
  obtain ⟨k, hk, hkr⟩ := exists_modEq a r hpos
  have hboth := (Nat.modEq_and_modEq_iff_modEq_mul h).mpr hkr
  refine ⟨k, ⟨hk, ?_, ?_⟩, ?_⟩
  · show k % s = i
    rw [← Nat.mod_eq_of_lt hi]
    exact hboth.1.trans hrs
  · show k % n = j
    rw [← Nat.mod_eq_of_lt hj]
    exact hboth.2.trans hrn
  · rintro k' ⟨hk', his, hjn⟩
    have hs : k' ≡ k [MOD s] := by
      show k' % s = k % s
      rw [his, hboth.1, hrs, Nat.mod_eq_of_lt hi]
    have hn : k' ≡ k [MOD n] := by
      show k' % n = k % n
      rw [hjn, hboth.2, hrn, Nat.mod_eq_of_lt hj]
    exact eq_of_modEq hk' hk ((Nat.modEq_and_modEq_iff_modEq_mul h).mp ⟨hs, hn⟩)

/-- In `w` windows one after the other there are `w` keys for each pair. -/
theorem card_windows {s n : ℕ} (h : Nat.Coprime s n) (a w : ℕ) {i j : ℕ} (hi : i < s) (hj : j < n) :
    ((Finset.Ico a (a + w * (s * n))).filter fun k => k % s = i ∧ k % n = j).card = w := by
  induction w with
  | zero => simp
  | succ w ih =>
    have hsplit : Finset.Ico a (a + (w + 1) * (s * n))
        = Finset.Ico a (a + w * (s * n))
          ∪ Finset.Ico (a + w * (s * n)) (a + w * (s * n) + s * n) := by
      rw [Finset.Ico_union_Ico_eq_Ico (Nat.le_add_right _ _) (Nat.le_add_right _ _)]
      congr 1
      ring
    have hone : ((Finset.Ico (a + w * (s * n)) (a + w * (s * n) + s * n)).filter
        fun k => k % s = i ∧ k % n = j).card = 1 := by
      obtain ⟨k, ⟨hk, hres⟩, huniq⟩ := exists_unique h (a + w * (s * n)) hi hj
      refine Finset.card_eq_one.mpr ⟨k, ?_⟩
      ext x
      rw [Finset.mem_filter, Finset.mem_Ico, Finset.mem_singleton]
      constructor
      · exact fun hx => huniq x hx
      · rintro rfl
        exact ⟨hk, hres⟩
    have hdisj : Disjoint (Finset.Ico a (a + w * (s * n)))
        (Finset.Ico (a + w * (s * n)) (a + w * (s * n) + s * n)) := Finset.Ico_disjoint_Ico_consecutive _ _ _
    rw [hsplit, Finset.filter_union,
      Finset.card_union_of_disjoint (Finset.disjoint_filter_filter hdisj), ih, hone]

end Residues
