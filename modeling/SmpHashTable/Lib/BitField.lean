import Mathlib.Data.Nat.Bitwise
import Mathlib.Tactic.Ring

/-!
# Bit fields of natural numbers

A machine word that packs a small code above an `n`-bit operand is read with two masks and
built with one `or`.  The three facts below turn those operations into division, remainder
and multiplication by a power of two, where `omega` can finish.
-/

namespace BitField

/-- The mask of a `k`-bit field that starts at bit `n` selects that field in place. -/
theorem and_field (x n k : ℕ) : x &&& ((2 ^ k - 1) * 2 ^ n) = x / 2 ^ n % 2 ^ k * 2 ^ n := by
  apply Nat.eq_of_testBit_eq
  intro i
  rw [Nat.testBit_and, Nat.testBit_mul_two_pow, Nat.testBit_mul_two_pow,
    Nat.testBit_two_pow_sub_one, Nat.testBit_mod_two_pow, Nat.testBit_div_two_pow]
  by_cases h : n ≤ i
  · rw [show i - n + n = i from by omega]
    simp [h, Bool.and_comm]
  · simp [h]

/-- Or-ing a code above bit `n` acts on the high part only. -/
theorem or_field (x c n : ℕ) : x ||| c * 2 ^ n = (x / 2 ^ n ||| c) * 2 ^ n + x % 2 ^ n := by
  have hlt : x % 2 ^ n < 2 ^ n := Nat.mod_lt _ (Nat.two_pow_pos n)
  rw [Nat.mul_comm (x / 2 ^ n ||| c), Nat.two_pow_add_eq_or_of_lt hlt]
  apply Nat.eq_of_testBit_eq
  intro i
  rw [Nat.testBit_or, Nat.testBit_or, Nat.testBit_mul_two_pow, Nat.testBit_two_pow_mul,
    Nat.testBit_or, Nat.testBit_div_two_pow, Nat.testBit_mod_two_pow]
  by_cases h : n ≤ i
  · rw [show i - n + n = i from by omega]
    simp [h, Nat.not_lt.mpr h]
  · simp [h, Nat.lt_of_not_le h]

theorem or_field_div (x c n : ℕ) : (x ||| c * 2 ^ n) / 2 ^ n = x / 2 ^ n ||| c := by
  rw [or_field, Nat.add_comm, Nat.add_mul_div_right _ _ (Nat.two_pow_pos n),
    Nat.div_eq_of_lt (Nat.mod_lt _ (Nat.two_pow_pos n)), Nat.zero_add]

theorem or_field_mod (x c n : ℕ) : (x ||| c * 2 ^ n) % 2 ^ n = x % 2 ^ n := by
  rw [or_field, Nat.mul_add_mod_self_right, Nat.mod_mod]

end BitField
