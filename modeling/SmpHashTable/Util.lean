import SmpHashTable.Lib.BitField
import Mathlib.Tactic.NormNum

/-!
# Constants and machine arithmetic

Words are natural numbers below `2 ^ 64`; every operation of the C code that can wrap is
written with its `% 2 ^ 64`.  A C `int` is an `Int`.
-/

namespace SmpHashTable

/-- `CACHELINE` of `util.h`. -/
def CACHELINE : ℕ := 64

/-- `MAX_CLIENTS` of `util.h`. -/
def MAX_CLIENTS : ℕ := 1024

/-- `MAX_SERVERS` of `util.h`. -/
def MAX_SERVERS : ℕ := 1024

/-- Unsigned 64-bit addition. -/
def add64 (a b : ℕ) : ℕ := (a + b) % 2 ^ 64

/-- Unsigned 64-bit subtraction. -/
def sub64 (a b : ℕ) : ℕ := (a + (2 ^ 64 - b % 2 ^ 64)) % 2 ^ 64

/-- The conversion of an `int` to a 64-bit unsigned type (sign extension). -/
def wordOfInt (i : ℤ) : ℕ := (i % 2 ^ 64).toNat

/-- The conversion of a 64-bit unsigned value to `int` (the low 32 bits, two's complement). -/
def intOfWord (w : ℕ) : ℤ :=
  if w % 2 ^ 32 < 2 ^ 31 then (w % 2 ^ 32 : ℕ) else (w % 2 ^ 32 : ℕ) - (2 ^ 32 : ℤ)

theorem add64_eq {a b : ℕ} (h : a + b < 2 ^ 64) : add64 a b = a + b := Nat.mod_eq_of_lt h

theorem sub64_eq {a b : ℕ} (h : b ≤ a) (ha : a < 2 ^ 64) : sub64 a b = a - b := by
  unfold sub64
  omega

theorem sub64_add64 {a k : ℕ} (hk : k < 2 ^ 64) : sub64 (add64 a k) a = k := by
  unfold sub64 add64
  omega

theorem wordOfInt_eq {i : ℤ} (h0 : 0 ≤ i) (h : i < 2 ^ 64) : wordOfInt i = i.toNat := by
  rw [wordOfInt, Int.emod_eq_of_lt h0 h]

theorem intOfWord_wordOfInt {i : ℤ} (hlo : -2 ^ 31 ≤ i) (hhi : i < 2 ^ 31) :
    intOfWord (wordOfInt i) = i := by
  unfold intOfWord wordOfInt
  split <;> omega

theorem wordOfInt_ne_zero {i : ℤ} (hlo : -2 ^ 31 ≤ i) (hhi : i < 2 ^ 31) (hne : i ≠ 0) :
    wordOfInt i ≠ 0 := by
  unfold wordOfInt
  omega

end SmpHashTable
